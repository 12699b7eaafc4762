import MPlayer.Mkv.Ebml
import MPlayer.Lib.Except
import Mathlib.Algebra.GroupWithZero.Nat

/-!
# Lacing

A block holds one frame or several.  How the frames of a laced block are told apart is
written in front of them: as sums of bytes (Xiph), as a first size and signed differences
(EBML), or not at all, when they are of one size.
-/

namespace MPlayer

open Lib

/-! ## Reading the sizes -/

/-- The next size of Xiph lacing, added to `lace`. -/
def xiphSize : List UInt8 → Nat → Nat → Except Fault (Nat × List UInt8 × Nat)
  | [], _, _ => .error .undefined
  | b :: buffer, size, lace =>
    if size = 0 then .error .refused
    else
      let lace := (lace + b.toNat) % 2 ^ 32
      if b = 0xFF then xiphSize buffer (size - 1) lace else .ok (lace, buffer, size - 1)

/-- The loop of Xiph lacing: the sizes, their sum, and the rest. -/
def xiphSizes : Nat → List UInt8 → Nat → Nat → Except Fault (List Nat × Nat × List UInt8 × Nat)
  | 0, buffer, size, total => .ok ([], total, buffer, size)
  | n + 1, buffer, size, total => do
    let (lace, buffer, size) ← xiphSize buffer size 0
    let (laces, total, buffer, size) ← xiphSizes n buffer size ((total + lace) % 2 ^ 32)
    .ok (lace :: laces, total, buffer, size)

/-- The loop of EBML lacing behind the size `prev`. -/
def ebmlSizes : Nat → List UInt8 → Nat → Nat → Nat →
    Except Fault (List Nat × Nat × List UInt8 × Nat)
  | 0, buffer, size, _, total => .ok ([], total, buffer, size)
  | n + 1, buffer, size, prev, total =>
    match ebmlReadVlenInt buffer with
    | none => .error .undefined
    | some (_, none) => .error .refused
    | some (snum, some l) =>
      if snum = ebmlIntInvalid ∨ size < l then .error .refused
      else do
        let lace := ((prev + snum) % 2 ^ 32).toNat
        let (laces, total, buffer, size) ←
          ebmlSizes n (buffer.drop l) (size - l) lace ((total + lace) % 2 ^ 32)
        .ok (lace :: laces, total, buffer, size)

/-- The branch for Xiph lacing. -/
def xiphLaces (laces : Nat) (buffer : List UInt8) (size : Nat) :
    Except Fault (List Nat × List UInt8 × Nat) := do
  let (sizes, total, buffer, size) ← xiphSizes (laces - 1) buffer size 0
  if size < total then .error .refused
  else if laces = 0 then .error .undefined
  else .ok (sizes ++ [(size - total) % 2 ^ 32], buffer, size)

/-- The branch for EBML lacing. -/
def ebmlLaces (laces : Nat) (buffer : List UInt8) (size : Nat) :
    Except Fault (List Nat × List UInt8 × Nat) :=
  match ebmlReadVlenUint buffer with
  | none => .error .undefined
  | some (_, none) => .error .refused
  | some (num, some l) =>
    if num = ebmlUintInvalid ∨ size < l then .error .refused
    else if laces = 0 then .error .undefined
    else do
      let lace := num % 2 ^ 32
      let (sizes, total, buffer, size) ← ebmlSizes (laces - 2) (buffer.drop l) (size - l) lace lace
      if size < total then .error .refused
      else if laces ≤ 1 then .error .undefined
      else .ok (lace :: sizes ++ [(size - total) % 2 ^ 32], buffer, size)

/-- `demux_mkv_read_block_lacing`: the number of laces, their sizes, and what is left of the
block.  The array of the sizes has room for as many as there are laces, and what is written
behind it is undefined. -/
def readBlockLacing : List UInt8 → Nat → Except Fault (Nat × List Nat × List UInt8 × Nat)
  | [], size => .error (if size = 0 then .refused else .undefined)
  | flags :: buffer, size =>
    if size = 0 then .error .refused
    else
      let size := size - 1
      if (flags &&& 0x06) >>> 1 = 0 then .ok (1, [size % 2 ^ 32], buffer, size)
      else if size = 0 then .error .refused
      else
        match buffer with
        | [] => .error .undefined
        | count :: buffer => do
          let size := size - 1
          let laces := (count + 1).toNat
          let (sizes, buffer, size) ←
            if (flags &&& 0x06) >>> 1 = 1 then xiphLaces laces buffer size
            else if (flags &&& 0x06) >>> 1 = 2 then
              .ok (List.replicate laces (size / laces % 2 ^ 32), buffer, size)
            else ebmlLaces laces buffer size
          .ok (laces, sizes, buffer, size)

/-! ## Cutting the frames -/

/-- What `handle_block` finds in a block: the number of the track, the time, the flags, the
number of the laces and their sizes, and the bytes of the frames. -/
structure Block where
  num : Int
  time : Int
  flags : UInt8
  laces : Nat
  laceSize : List Nat
  block : List UInt8
  length : Nat

/-- The beginning of `handle_block`. -/
def parseBlock (block : List UInt8) (length : Nat) : Except Fault Block :=
  match ebmlReadVlenUint block with
  | none => .error .undefined
  | some (_, none) => .error .undefined
  | some (num, some tmp) =>
    match block.drop tmp with
    | hi :: lo :: flags :: block => do
      let time := Int.bmod (hi.toNat * 256 + lo.toNat) (2 ^ 16)
      let (laces, laceSize, block, length) ←
        readBlockLacing (flags :: block) ((length + 2 ^ 64 - (tmp + 2)) % 2 ^ 64)
      .ok ⟨Int.bmod num (2 ^ 32), time, flags, laces, laceSize, block, length⟩
    | _ => .error .undefined

/-- The frames that the loop of `handle_block` over the laces takes out of a block. -/
def cutFrames : List Nat → List UInt8 → Except Fault (List (List UInt8))
  | [], _ => .ok []
  | size :: sizes, block =>
    if block.length < size then .error .undefined
    else do
      let frames ← cutFrames sizes (block.drop size)
      .ok (block.take size :: frames)

/-! ## Writing -/

/-- The ways to lace, EBML lacing with the lengths of its numbers. -/
inductive Lacing where
  | none
  | xiph
  | fixed
  | ebml (widths : List Nat)
deriving DecidableEq

/-- The bits of the flags. -/
def Lacing.code : Lacing → UInt8
  | none => 0
  | xiph => 1
  | fixed => 2
  | ebml _ => 3

/-- A size of Xiph lacing. -/
def xiphCode (n : Nat) : List UInt8 := List.replicate (n / 255) 0xFF ++ [UInt8.ofNat (n % 255)]

/-- The number that stands for a difference. -/
def ebmlDiff (w : Nat) (d : Int) : Nat := (d + 2 ^ (7 * w - 1) - 1).toNat

/-- The differences of EBML lacing behind the size `prev`. -/
def ebmlDiffs : List Nat → Nat → List Nat → List UInt8
  | w :: widths, prev, n :: sizes => vlen w (ebmlDiff w (n - prev)) ++ ebmlDiffs widths n sizes
  | _, _, _ => []

/-- The sizes in front of the frames. -/
def laceCodes (lacing : Lacing) (sizes : List Nat) : List UInt8 :=
  match lacing with
  | .none => []
  | .xiph => sizes.dropLast.flatMap xiphCode
  | .fixed => []
  | .ebml widths =>
    match widths, sizes.dropLast with
    | w :: widths, n :: sizes => vlen w n ++ ebmlDiffs widths n sizes
    | _, _ => []

/-- The payload of a block with the given frames. -/
def laced (lacing : Lacing) (flags : UInt8) (frames : List (List UInt8)) : List UInt8 :=
  let count := if lacing = .none then [] else [UInt8.ofNat (frames.length - 1)]
  flags :: count ++ laceCodes lacing (frames.map List.length) ++ frames.flatten

/-- The differences that `widths` can take. -/
def DiffsFit : List Nat → Nat → List Nat → Prop
  | [], _, [] => True
  | w :: widths, prev, n :: sizes =>
    0 ≤ (n - prev + 2 ^ (7 * w - 1) - 1 : Int) ∧ Coded w (ebmlDiff w (n - prev)) ∧
      DiffsFit widths n sizes
  | _, _, _ => False

/-- The lists of frame sizes that can be laced. -/
def LacingFits (lacing : Lacing) (sizes : List Nat) : Prop :=
  match lacing with
  | .none => sizes.length = 1
  | .xiph => True
  | .fixed => ∀ n ∈ sizes, ∀ m ∈ sizes, n = m
  | .ebml widths =>
    match widths, sizes.dropLast with
    | [], [] => True
    | w :: widths, n :: sizes => Coded w n ∧ DiffsFit widths n sizes
    | _, _ => False

/-! ## Xiph lacing -/

theorem xiphSize_replicate (r : Nat) (hr : r < 255) (rest : List UInt8) :
    ∀ (k size lace : Nat), k < size →
      xiphSize (List.replicate k 0xFF ++ UInt8.ofNat r :: rest) size lace =
        .ok ((lace + (255 * k + r)) % 2 ^ 32, rest, size - (k + 1))
  | 0, size, lace, hsize => by
    have hbyte : (UInt8.ofNat r).toNat = r := by
      rw [UInt8.toNat_ofNat', Nat.mod_eq_of_lt (Nat.lt_trans hr (by decide))]
    have hne : UInt8.ofNat r ≠ 0xFF := by
      intro heq
      rw [heq] at hbyte
      have : (0xFF : UInt8).toNat = 255 := rfl
      omega
    rw [List.replicate_zero, List.nil_append, xiphSize, if_neg (Nat.ne_of_gt hsize)]
    simp only [hbyte, if_neg hne]
    simp
  | k + 1, size, lace, hsize => by
    have hbyte : (0xFF : UInt8).toNat = 255 := rfl
    rw [List.replicate_succ, List.cons_append, xiphSize, if_neg (by omega)]
    simp only [hbyte, if_true]
    rw [xiphSize_replicate r hr rest k (size - 1) _ (by omega)]
    congr 2
    · omega
    · congr 1
      omega

/-- A size of Xiph lacing is read back. -/
theorem xiphSize_code (n : Nat) (rest : List UInt8) {size : Nat} (lace : Nat)
    (hsize : (xiphCode n).length ≤ size) :
    xiphSize (xiphCode n ++ rest) size lace =
      .ok ((lace + n) % 2 ^ 32, rest, size - (xiphCode n).length) := by
  have hlen : (xiphCode n).length = n / 255 + 1 := by simp [xiphCode]
  rw [hlen] at hsize ⊢
  rw [xiphCode, List.append_assoc, List.singleton_append,
    xiphSize_replicate _ (Nat.mod_lt _ (by decide)) _ _ _ _ hsize, Nat.div_add_mod]

theorem xiphSizes_code : ∀ (sizes : List Nat) (rest : List UInt8) (size total : Nat),
    (sizes.flatMap xiphCode).length ≤ size → total < 2 ^ 32 →
      xiphSizes sizes.length (sizes.flatMap xiphCode ++ rest) size total =
        .ok (sizes.map (· % 2 ^ 32), (total + sizes.sum) % 2 ^ 32, rest,
          size - (sizes.flatMap xiphCode).length)
  | [], rest, size, total, _, htotal => by
    simp [xiphSizes]
    omega
  | n :: sizes, rest, size, total, hsize, htotal => by
    rw [List.flatMap_cons, List.length_append] at hsize
    have hrec := xiphSizes_code sizes rest (size - (xiphCode n).length)
      ((total + n % 2 ^ 32) % 2 ^ 32) (by omega) (Nat.mod_lt _ (by decide))
    rw [List.length_cons, xiphSizes, List.flatMap_cons, List.append_assoc,
      xiphSize_code n _ 0 (by omega), Nat.zero_add]
    simp only [bind, Except.bind, hrec, List.map_cons, List.sum_cons, List.length_append]
    congr 3
    · omega
    · congr 1
      omega

/-! ## EBML lacing -/

variable {w num : Nat} {lacing : Lacing} {flags : UInt8} {frames : List (List UInt8)}

/-- A difference is read back if its number takes no more than four bytes. -/
theorem ebmlReadVlenInt_diff {d : Int} (hlo : 0 ≤ d + 2 ^ (7 * w - 1) - 1)
    (hw : Coded w (ebmlDiff w d)) (rest : List UInt8) :
    ebmlReadVlenInt (vlen w (ebmlDiff w d) ++ rest) =
      if w ≤ 4 then some (d, some w) else none := by
  have hne : ebmlDiff w d ≠ ebmlUintInvalid := by
    have hpow : 2 ^ (7 * w) ≤ 2 ^ 56 := Nat.pow_le_pow_right (by decide) (by have := hw.le; omega)
    have := hw.lt
    simp only [ebmlUintInvalid]
    omega
  have hval : ((ebmlDiff w d : Nat) : Int) - (2 ^ (7 * w - 1) - 1) = d := by
    rw [ebmlDiff, Int.toNat_of_nonneg hlo]
    omega
  rw [ebmlReadVlenInt, ebmlReadVlenUint_vlen hw]
  simp only [if_neg hne, hval]
  by_cases h4 : w ≤ 4
  · rw [if_pos h4, if_neg (by omega)]
  · rw [if_neg h4, if_pos (by omega)]

theorem ebmlDiff_valid {d : Int} (hw : Coded w (ebmlDiff w d)) (h4 : w ≤ 4) :
    d ≠ ebmlIntInvalid := by
  have hpow : 2 ^ (7 * w) ≤ 2 ^ 28 := Nat.pow_le_pow_right (by decide) (by omega)
  have hbias : (0 : Int) < 2 ^ (7 * w - 1) := Int.pow_pos (by decide)
  have hlt := hw.lt
  simp only [ebmlDiff] at hlt
  simp only [ebmlIntInvalid]
  omega

theorem ebmlSizes_diffs : ∀ (widths : List Nat) (prev : Nat) (sizes : List Nat)
    (rest : List UInt8) (size total : Nat), DiffsFit widths prev sizes →
    (ebmlDiffs widths prev sizes).length ≤ size → total < 2 ^ 32 →
      ebmlSizes sizes.length (ebmlDiffs widths prev sizes ++ rest) size (prev % 2 ^ 32) total =
        if ∀ w ∈ widths, w ≤ 4 then
          .ok (sizes.map (· % 2 ^ 32), (total + sizes.sum) % 2 ^ 32, rest,
            size - (ebmlDiffs widths prev sizes).length)
        else .error .undefined
  | [], prev, [], rest, size, total, _, _, htotal => by
    simp [ebmlSizes, ebmlDiffs]
    omega
  | w :: widths, prev, n :: sizes, rest, size, total, hfit, hsize, htotal => by
    obtain ⟨hlo, hw, hfit⟩ := hfit
    rw [ebmlDiffs, List.length_append, length_vlen] at hsize
    have hread := ebmlReadVlenInt_diff hlo hw (ebmlDiffs widths n sizes ++ rest)
    rw [List.length_cons, ebmlSizes, ebmlDiffs, List.append_assoc, hread]
    by_cases h4 : w ≤ 4
    · have hne : ((n : Int) - prev) ≠ ebmlIntInvalid := ebmlDiff_valid hw h4
      have hlace : (((prev % 2 ^ 32 : Nat) + ((n : Int) - prev)) % 2 ^ 32).toNat =
          n % 2 ^ 32 := by
        omega
      have hdrop : (vlen w (ebmlDiff w (n - prev)) ++ (ebmlDiffs widths n sizes ++ rest)).drop w =
          ebmlDiffs widths n sizes ++ rest := List.drop_left' (length_vlen _ _)
      have hrec := ebmlSizes_diffs widths n sizes rest (size - w)
        ((total + n % 2 ^ 32) % 2 ^ 32) hfit (by omega) (Nat.mod_lt _ (by decide))
      rw [if_pos h4]
      simp only [if_neg (show ¬ (((n : Int) - prev) = ebmlIntInvalid ∨ size < w) from
        fun h => h.elim hne (by omega)), hlace, hdrop, hrec]
      by_cases hall : ∀ w ∈ widths, w ≤ 4
      · have hall' : ∀ x ∈ w :: widths, x ≤ 4 := by
          simpa [h4] using hall
        rw [if_pos hall, if_pos hall']
        simp only [bind, Except.bind, List.map_cons, List.sum_cons, List.length_append, length_vlen]
        congr 3
        · omega
        · congr 1
          omega
      · have hall' : ¬ ∀ x ∈ w :: widths, x ≤ 4 := fun h =>
          hall fun x hx => h x (List.mem_cons_of_mem _ hx)
        rw [if_neg hall, if_neg hall']
        rfl
    · have hall' : ¬ ∀ x ∈ w :: widths, x ≤ 4 := fun h => h4 (h w List.mem_cons_self)
      rw [if_neg h4, if_neg hall']
  | [], _, _ :: _, _, _, _, hfit, _, _ => hfit.elim
  | _ :: _, _, [], _, _, _, hfit, _, _ => hfit.elim

/-! ## Reading back -/

/-- The frames of a block are cut where they were put together. -/
theorem cutFrames_flatten : ∀ (frames : List (List UInt8)) (rest : List UInt8),
    cutFrames (frames.map List.length) (frames.flatten ++ rest) = .ok frames
  | [], _ => rfl
  | frame :: frames, rest => by
    have hlen : ¬ (frame ++ (frames.flatten ++ rest)).length < frame.length := by simp
    rw [List.map_cons, cutFrames, List.flatten_cons, List.append_assoc, if_neg hlen,
      List.drop_left, List.take_left, cutFrames_flatten]
    rfl

/-- The size of the last frame is what the others leave. -/
theorem lastSize (total last : Nat) :
    ¬ total + last < total % 2 ^ 32 ∧ (total + last - total % 2 ^ 32) % 2 ^ 32 = last % 2 ^ 32 := by
  omega

theorem countByte {n : Nat} (h1 : 1 ≤ n) (h2 : n ≤ 256) :
    (UInt8.ofNat (n - 1) + 1).toNat = n % 256 := by
  rw [UInt8.toNat_add, UInt8.toNat_ofNat']
  have : (1 : UInt8).toNat = 1 := rfl
  omega

/-- The branch for a lacing. -/
def Lacing.branch (lacing : Lacing) (laces : Nat) (buffer : List UInt8) (size : Nat) :
    Except Fault (List Nat × List UInt8 × Nat) :=
  match lacing with
  | xiph => xiphLaces laces buffer size
  | ebml _ => ebmlLaces laces buffer size
  | _ => .ok (List.replicate laces (size / laces % 2 ^ 32), buffer, size)

/-- A laced block is read by the branch for its lacing. -/
theorem readBlockLacing_laced {count : UInt8} (hflags : (flags &&& 0x06) >>> 1 = lacing.code)
    (hlaced : lacing ≠ .none) (buffer : List UInt8) (size : Nat) :
    readBlockLacing (flags :: count :: buffer) (size + 2) = (do
      let (sizes, buffer, size) ← lacing.branch (count + 1).toNat buffer size
      .ok ((count + 1).toNat, sizes, buffer, size)) := by
  have h1 : ¬ size + 2 = 0 := by omega
  have h2 : ¬ size + 2 - 1 = 0 := by omega
  rw [readBlockLacing, hflags, if_neg h1]
  cases lacing with
  | none => exact absurd rfl hlaced
  | xiph =>
    simp only [Lacing.code, if_neg h2]
    rfl
  | fixed =>
    simp only [Lacing.code, if_neg h2]
    rfl
  | ebml widths =>
    simp only [Lacing.code, if_neg h2]
    rfl

theorem xiphLaces_code (init : List Nat) (last : Nat) (rest : List UInt8) :
    xiphLaces (init.length + 1) (init.flatMap xiphCode ++ rest)
        ((init.flatMap xiphCode).length + (init.sum + last)) =
      .ok ((init ++ [last]).map (· % 2 ^ 32), rest, init.sum + last) := by
  have hsizes := xiphSizes_code init rest ((init.flatMap xiphCode).length + (init.sum + last)) 0
    (Nat.le_add_right _ _) (by decide)
  obtain ⟨hlt, hlast⟩ := lastSize init.sum last
  rw [Nat.add_sub_cancel_left, Nat.zero_add] at hsizes
  rw [xiphLaces, Nat.add_sub_cancel, hsizes, ok_bind]
  simp only [if_neg hlt, if_neg (Nat.succ_ne_zero _), hlast, List.map_append, List.map_singleton]

theorem ebmlLaces_diffs {n : Nat} {widths init : List Nat} (hw : Coded w n)
    (hfit : DiffsFit widths n init) (last : Nat) (rest : List UInt8) :
    ebmlLaces (init.length + 2) (vlen w n ++ ebmlDiffs widths n init ++ rest)
        (w + (ebmlDiffs widths n init).length + (n + init.sum + last)) =
      if ∀ w ∈ widths, w ≤ 4 then
        .ok ((n :: init ++ [last]).map (· % 2 ^ 32), rest, n + init.sum + last)
      else .error .undefined := by
  have hne : n ≠ ebmlUintInvalid := by
    have hpow : 2 ^ (7 * w) ≤ 2 ^ 56 := Nat.pow_le_pow_right (by decide) (by have := hw.le; omega)
    have := hw.lt
    simp only [ebmlUintInvalid]
    omega
  have hdrop : (vlen w n ++ (ebmlDiffs widths n init ++ rest)).drop w =
      ebmlDiffs widths n init ++ rest := List.drop_left' (length_vlen _ _)
  have hsizes := ebmlSizes_diffs widths n init rest
    ((ebmlDiffs widths n init).length + (n + init.sum + last)) (n % 2 ^ 32) hfit
    (Nat.le_add_right _ _) (Nat.mod_lt _ (by decide))
  have hleft : w + (ebmlDiffs widths n init).length + (n + init.sum + last) - w =
      (ebmlDiffs widths n init).length + (n + init.sum + last) := by omega
  rw [ebmlLaces, List.append_assoc, ebmlReadVlenUint_vlen hw]
  simp only [if_neg (show ¬ (n = ebmlUintInvalid ∨
      w + (ebmlDiffs widths n init).length + (n + init.sum + last) < w) from
    fun h => h.elim hne (by omega)), if_neg (show ¬ init.length + 2 = 0 by omega), hdrop, hleft,
    Nat.add_sub_cancel, hsizes]
  split
  · obtain ⟨hlt, hlast⟩ := lastSize (n + init.sum) last
    have hsum : (n % 2 ^ 32 + init.sum) % 2 ^ 32 = (n + init.sum) % 2 ^ 32 := by omega
    simp only [ok_bind, hsum, Nat.add_sub_cancel_left, if_neg hlt, hlast,
      if_neg (show ¬ init.length + 2 ≤ 1 by omega), List.map_append, List.map_cons, List.map_nil,
      List.cons_append]
  · rfl

/-- With a single lace EBML lacing writes behind the array of the sizes. -/
theorem ebmlLaces_one {laces : Nat} (h1 : laces ≤ 1) (buffer : List UInt8) (size : Nat) :
    ∀ r, ebmlLaces laces buffer size ≠ .ok r := by
  intro r h
  rw [ebmlLaces] at h
  split at h
  · cases h
  · cases h
  · split at h
    · cases h
    · split at h
      · cases h
      · obtain ⟨⟨sizes, total, buffer', left⟩, _, h⟩ := bind_ok_iff.mp h
        simp only at h
        split at h
        · cases h
        · cases h

/-! ## The round trip -/

/-- The lists of frame sizes that a laced block gives back. -/
def Lacing.Reads (lacing : Lacing) (sizes : List Nat) : Prop :=
  (∀ n ∈ sizes, n < 2 ^ 32) ∧
    match lacing with
    | .none => True
    | .xiph => sizes.length ≤ 255
    | .fixed => sizes.length ≤ 255
    | .ebml widths => 2 ≤ sizes.length ∧ sizes.length ≤ 255 ∧ ∀ w ∈ widths.tail, w ≤ 4

theorem map_mod_eq {sizes : List Nat} :
    sizes.map (· % 2 ^ 32) = sizes ↔ ∀ n ∈ sizes, n < 2 ^ 32 := by
  induction sizes with
  | nil => simp
  | cons n sizes ih =>
    simp only [List.map_cons, List.cons.injEq, ih, List.forall_mem_cons]
    constructor
    · rintro ⟨hn, h⟩
      exact ⟨hn ▸ Nat.mod_lt _ (by decide), h⟩
    · rintro ⟨hn, h⟩
      exact ⟨Nat.mod_eq_of_lt hn, h⟩

theorem parseBlock_laced (hw : Coded w num) (hi lo flags : UInt8) (payload pad : List UInt8)
    (hlen : w + payload.length + 3 < 2 ^ 64) :
    parseBlock (vlen w num ++ hi :: lo :: flags :: payload ++ pad) (w + payload.length + 3) = (do
      let (laces, sizes, block, length) ←
        readBlockLacing (flags :: (payload ++ pad)) (payload.length + 1)
      .ok ⟨Int.bmod num (2 ^ 32), Int.bmod (hi.toNat * 256 + lo.toNat) (2 ^ 16), flags, laces,
        sizes,
        block, length⟩) := by
  have hdrop : (vlen w num ++ (hi :: lo :: flags :: (payload ++ pad))).drop w =
      hi :: lo :: flags :: (payload ++ pad) := List.drop_left' (length_vlen _ _)
  have hleft : (w + payload.length + 3 + 2 ^ 64 - (w + 2)) % 2 ^ 64 = payload.length + 1 := by omega
  rw [parseBlock, List.append_assoc, ebmlReadVlenUint_vlen hw]
  simp only [List.cons_append, hdrop, hleft]

/-- What `demux_mkv_read_block_lacing` and the loop over the laces make of a block. -/
def GivesBack (block : List UInt8) (length : Nat) (frames : List (List UInt8)) : Prop :=
  ∃ b, parseBlock block length = .ok b ∧ b.laces = frames.length ∧
    b.laceSize = frames.map List.length ∧ cutFrames b.laceSize b.block = .ok frames

/-- For a laced block this is a matter of the branch for its lacing and of the count. -/
theorem givesBack_laced (hi lo : UInt8) (pad : List UInt8) (hw : Coded w num)
    (hpos : 1 ≤ frames.length) (hmax : frames.length ≤ 256)
    (hflags : (flags &&& 0x06) >>> 1 = lacing.code) (hlaced : lacing ≠ .none)
    (hlen : (vlen w num ++ hi :: lo :: laced lacing flags frames).length < 2 ^ 64) :
    GivesBack (vlen w num ++ hi :: lo :: laced lacing flags frames ++ pad)
        (vlen w num ++ hi :: lo :: laced lacing flags frames).length frames ↔
      frames.length ≤ 255 ∧ ∃ rest size,
        lacing.branch frames.length
            (laceCodes lacing (frames.map List.length) ++ (frames.flatten ++ pad))
            ((laceCodes lacing (frames.map List.length)).length + frames.flatten.length) =
          .ok (frames.map List.length, rest, size) ∧
        cutFrames (frames.map List.length) rest = .ok frames := by
  have hcount := countByte hpos hmax
  obtain ⟨payload, hpayload⟩ : ∃ payload, payload =
      laceCodes lacing (frames.map List.length) ++ frames.flatten := ⟨_, rfl⟩
  have hblock : vlen w num ++ hi :: lo :: laced lacing flags frames =
      vlen w num ++ hi :: lo :: flags :: UInt8.ofNat (frames.length - 1) :: payload := by
    simp [laced, if_neg hlaced, hpayload]
  have hlength : (vlen w num ++ hi :: lo :: laced lacing flags frames).length =
      w + (payload.length + 1) + 3 := by
    rw [hblock]
    simp only [List.length_append, List.length_cons, length_vlen]
    omega
  have hparse :=
    parseBlock_laced hw hi lo flags (UInt8.ofNat (frames.length - 1) :: payload) pad (by
    rw [List.length_cons]
    omega)
  rw [List.length_cons, List.cons_append, readBlockLacing_laced hflags hlaced, hcount] at hparse
  rw [hlength, hblock, ← List.length_append, ← List.append_assoc, ← hpayload]
  constructor
  · rintro ⟨b, hb, hlaces, hsizes, hcut⟩
    rw [hparse] at hb
    obtain ⟨⟨laces, sizes, rest, size⟩, hread, hb⟩ := bind_ok_iff.mp hb
    obtain ⟨⟨sizes', rest', size'⟩, hbranch, hread⟩ := bind_ok_iff.mp hread
    cases hread
    have heq := Except.ok.inj hb
    subst heq
    simp only at hlaces hsizes hcut
    rw [hsizes] at hbranch hcut
    rw [hlaces] at hbranch
    exact ⟨by omega, rest, size, hbranch, hcut⟩
  · rintro ⟨h255, rest, size, hbranch, hcut⟩
    have hmod : frames.length % 256 = frames.length := Nat.mod_eq_of_lt (Nat.lt_succ_of_le h255)
    rw [hmod, hbranch] at hparse
    exact ⟨_, hparse, rfl, rfl, hcut⟩

/-- If the branch reads the sizes, all there is to ask is whether they fit their array. -/
theorem branch_reads {lacing : Lacing} {frames : List (List UInt8)} {pad buffer : List UInt8}
    {size : Nat} (h : ∃ size', lacing.branch frames.length buffer size =
      .ok ((frames.map List.length).map (· % 2 ^ 32), frames.flatten ++ pad, size')) :
    (∃ rest size', lacing.branch frames.length buffer size =
        .ok (frames.map List.length, rest, size') ∧
      cutFrames (frames.map List.length) rest = .ok frames) ↔
      ∀ n ∈ frames.map List.length, n < 2 ^ 32 := by
  obtain ⟨size', h⟩ := h
  rw [h, ← map_mod_eq]
  constructor
  · rintro ⟨rest, size'', heq, _⟩
    exact (Prod.mk.inj (Except.ok.inj heq)).1
  · intro heq
    exact ⟨_, _, by rw [heq], cutFrames_flatten frames pad⟩

/-- The sizes of frames, the last one apart. -/
theorem sizes_split (h : frames ≠ []) :
    ∃ last, frames.map List.length = (frames.map List.length).dropLast ++ [last] ∧
      frames.flatten.length = (frames.map List.length).dropLast.sum + last := by
  have hne : frames.map List.length ≠ [] := by simpa using h
  refine ⟨(frames.map List.length).getLast hne, (List.dropLast_concat_getLast hne).symm, ?_⟩
  rw [List.length_flatten]
  conv => lhs; rw [← List.dropLast_concat_getLast hne]
  rw [List.sum_append, List.sum_singleton]

/-- A block with a single frame that isn't laced. -/
theorem givesBack_single {frame : List UInt8} (hi lo : UInt8) (pad : List UInt8)
    (hw : Coded w num) (hflags : (flags &&& 0x06) >>> 1 = Lacing.none.code)
    (hlen : (vlen w num ++ hi :: lo :: laced .none flags [frame]).length < 2 ^ 64) :
    GivesBack (vlen w num ++ hi :: lo :: laced .none flags [frame] ++ pad)
        (vlen w num ++ hi :: lo :: laced .none flags [frame]).length [frame] ↔
      Lacing.none.Reads [frame.length] := by
  have hblock : vlen w num ++ hi :: lo :: laced .none flags [frame] =
      vlen w num ++ hi :: lo :: flags :: frame := by simp [laced, laceCodes]
  have hlength : (vlen w num ++ hi :: lo :: laced .none flags [frame]).length =
      w + frame.length + 3 := by
    rw [hblock]
    simp only [List.length_append, List.length_cons, length_vlen]
    omega
  have hparse := parseBlock_laced hw hi lo flags frame pad (by omega)
  have hread : readBlockLacing (flags :: (frame ++ pad)) (frame.length + 1) =
      .ok (1, [frame.length % 2 ^ 32], frame ++ pad, frame.length) := by
    rw [readBlockLacing, if_neg (Nat.succ_ne_zero _)]
    exact if_pos hflags
  rw [hlength, hblock, Lacing.Reads, and_true, ← map_mod_eq]
  rw [hread] at hparse
  constructor
  · rintro ⟨b, hb, _, hsizes, _⟩
    have heq := Except.ok.inj (hparse.symm.trans hb)
    subst heq
    exact hsizes
  · intro heq
    refine ⟨_, hparse, rfl, heq, ?_⟩
    have hcut := cutFrames_flatten [frame] pad
    rw [List.map_singleton, List.flatten_singleton] at hcut
    change cutFrames ([frame.length].map (· % 2 ^ 32)) (frame ++ pad) = .ok [frame]
    rw [heq]
    exact hcut

/-- A laced block gives its frames back exactly if the sizes fit the array they are read
into, and the count and the differences the numbers that they are computed with. -/
theorem lacing_round_trip (lacing : Lacing) (flags : UInt8) (frames : List (List UInt8))
    {w num : Nat} (hi lo : UInt8) (pad : List UInt8) (hw : Coded w num)
    (hpos : 1 ≤ frames.length) (hmax : frames.length ≤ 256)
    (hflags : (flags &&& 0x06) >>> 1 = lacing.code)
    (hfit : LacingFits lacing (frames.map List.length))
    (hlen : (vlen w num ++ hi :: lo :: laced lacing flags frames).length < 2 ^ 64) :
    GivesBack (vlen w num ++ hi :: lo :: laced lacing flags frames ++ pad)
        (vlen w num ++ hi :: lo :: laced lacing flags frames).length frames ↔
      lacing.Reads (frames.map List.length) := by
  have hne : frames ≠ [] := List.ne_nil_of_length_pos hpos
  obtain ⟨last, hsplit, hsum⟩ := sizes_split hne
  have hlength : (frames.map List.length).dropLast.length + 1 = frames.length := by
    rw [List.length_dropLast, List.length_map]
    omega
  cases lacing with
  | none =>
    obtain ⟨frame, rfl⟩ : ∃ frame, frames = [frame] := List.length_eq_one_iff.mp (by
      simpa [LacingFits] using hfit)
    exact givesBack_single hi lo pad hw hflags hlen
  | xiph =>
    rw [givesBack_laced hi lo pad hw hpos hmax hflags (by decide) hlen, branch_reads,
      Lacing.Reads, and_comm, List.length_map]
    have hread := xiphLaces_code (frames.map List.length).dropLast last (frames.flatten ++ pad)
    rw [hlength, ← hsum, ← hsplit] at hread
    exact ⟨_, hread⟩
  | fixed =>
    have hall : frames.map List.length = List.replicate frames.length last := by
      refine List.eq_replicate_iff.mpr ⟨List.length_map _, fun n hn => hfit n hn last ?_⟩
      rw [hsplit]
      exact List.mem_append_right _ List.mem_cons_self
    have hsize : frames.flatten.length / frames.length = last := by
      rw [List.length_flatten, hall, List.sum_replicate_nat, Nat.mul_comm,
        Nat.mul_div_cancel _ hpos]
    have hread : Lacing.fixed.branch frames.length (frames.flatten ++ pad) frames.flatten.length =
        .ok ((frames.map List.length).map (· % 2 ^ 32), frames.flatten ++ pad,
          frames.flatten.length) := by
      rw [hall, List.map_replicate, ← hsize]
      rfl
    rw [givesBack_laced hi lo pad hw hpos hmax hflags (by decide) hlen]
    simp only [laceCodes, List.nil_append, List.length_nil, Nat.zero_add]
    rw [branch_reads ⟨_, hread⟩, Lacing.Reads, and_comm, List.length_map]
  | ebml widths =>
    rw [givesBack_laced hi lo pad hw hpos hmax hflags (fun h => by cases h) hlen]
    simp only [LacingFits] at hfit
    simp only [laceCodes]
    cases widths with
    | nil =>
      cases hinit : (frames.map List.length).dropLast with
      | nil =>
        rw [hinit] at hlength
        constructor
        · rintro ⟨_, rest, size, hread, _⟩
          exact absurd hread (ebmlLaces_one (Nat.le_of_eq hlength.symm) _ _ _)
        · rintro ⟨_, h2, _⟩
          rw [List.length_map, ← hlength] at h2
          exact absurd h2 (by decide)
      | cons n init =>
        rw [hinit] at hfit
        exact hfit.elim
    | cons width widths =>
      cases hinit : (frames.map List.length).dropLast with
      | nil =>
        rw [hinit] at hfit
        exact hfit.elim
      | cons n init =>
        rw [hinit] at hfit hlength hsum hsplit
        obtain ⟨hwidth, hdiffs⟩ := hfit
        have hread := ebmlLaces_diffs hwidth hdiffs last (frames.flatten ++ pad)
        rw [List.sum_cons] at hsum
        rw [List.length_cons] at hlength
        rw [← hsum, hlength, ← hsplit] at hread
        simp only [List.length_append, length_vlen]
        rw [Lacing.Reads, List.length_map]
        simp only [List.tail_cons]
        by_cases hall : ∀ w ∈ widths, w ≤ 4
        · rw [if_pos hall] at hread
          have hbranch : (Lacing.ebml (width :: widths)).branch frames.length _ _ = _ := hread
          rw [branch_reads ⟨_, hbranch⟩]
          constructor
          · rintro ⟨h255, hsizes⟩
            exact ⟨hsizes, hlength ▸ Nat.le_add_left 2 _, h255, hall⟩
          · rintro ⟨hsizes, _, h255, _⟩
            exact ⟨h255, hsizes⟩
        · rw [if_neg hall] at hread
          constructor
          · rintro ⟨_, rest, size, hbranch, _⟩
            cases hread.symm.trans hbranch
          · rintro ⟨_, _, _, hwidths⟩
            exact absurd hwidths hall

theorem coded_one : Coded 1 1 := ⟨by decide, by decide, by decide⟩

/-- Two frames with Xiph lacing on track 1. -/
theorem lacing_round_trip_xiph :
    GivesBack [0x81, 0, 40, 0x02, 1, 3, 10, 20, 30, 40, 50] 11 [[10, 20, 30], [40, 50]] :=
  (lacing_round_trip .xiph 0x02 [[10, 20, 30], [40, 50]] 0 40 [] coded_one (by decide) (by decide)
    rfl trivial (by decide)).mpr ⟨by decide, by decide⟩

/-- As many frames as the count can stand for. -/
def manyFrames : List (List UInt8) := List.replicate 256 [7]

theorem manyFrames_length : manyFrames.length = 256 := List.length_replicate

theorem manyFrames_sizes : manyFrames.map List.length = List.replicate 256 1 :=
  List.map_replicate

/-- A block of 256 frames is taken for one without any, and of a single frame with EBML
lacing the size of a second one is written behind the array. -/
theorem lacing_loses_frames :
    (LacingFits .fixed (manyFrames.map List.length) ∧
      ¬ GivesBack (vlen 1 1 ++ 0 :: 0 :: laced .fixed 0x04 manyFrames ++ [])
        (vlen 1 1 ++ 0 :: 0 :: laced .fixed 0x04 manyFrames).length manyFrames) ∧
      LacingFits (.ebml []) ([[(0x81 : UInt8)]].map List.length) ∧
      ¬ GivesBack (vlen 1 1 ++ 0 :: 0 :: laced (.ebml []) 0x06 [[0x81]] ++ [])
        (vlen 1 1 ++ 0 :: 0 :: laced (.ebml []) 0x06 [[0x81]]).length [[0x81]] := by
  have hpos : 1 ≤ manyFrames.length := by rw [manyFrames_length]; decide
  have hflatten : manyFrames.flatten.length = 256 := by
    rw [List.length_flatten, manyFrames_sizes, List.sum_replicate_nat]
  refine ⟨⟨?_, fun h => ?_⟩, trivial, fun h => ?_⟩
  · intro n hn m hm
    rw [manyFrames_sizes] at hn hm
    rw [List.eq_of_mem_replicate hn, List.eq_of_mem_replicate hm]
  · have hlen : (vlen 1 1 ++ 0 :: 0 :: laced .fixed 0x04 manyFrames).length < 2 ^ 64 := by
      simp [laced, laceCodes, hflatten]
    have hcount := ((givesBack_laced 0 0 [] coded_one hpos (Nat.le_of_eq manyFrames_length) rfl
      (by decide) hlen).mp h).1
    rw [manyFrames_length] at hcount
    exact absurd hcount (by decide)
  · obtain ⟨_, rest, size, hread, _⟩ := (givesBack_laced 0 0 [] coded_one (by decide) (by decide)
      rfl (by decide) (by decide)).mp h
    simp only [Lacing.branch] at hread
    exact ebmlLaces_one (by decide) _ _ _ hread

end MPlayer
