import MPlayer.Lib.Vlen
import MPlayer.Stream.Reader
import Mathlib.Algebra.Group.Int.Defs

/-!
# EBML

The reader of `ebml.c`.  An element is an id, the length of its content and the content; the
id and the length are numbers that tell their own length.

The functions that give such a number also give the value of `*length`, `none` if they leave
it alone.  At the end of the stream `stream_read_char` gives `-256`, all ones above a zero
byte, and so does what is made of it.
-/

namespace MPlayer

open Lib

/-! ## Numbers -/

/-- `EBML_UINT_INVALID`. -/
def ebmlUintInvalid : Nat := 0xFFFFFFFFFFFFFFFF

/-- `EBML_INT_INVALID`. -/
def ebmlIntInvalid : Int := 0x7FFFFFFFFFFFFFFF

/-- `EBML_ID_INVALID`. -/
def ebmlIdInvalid : Nat := 0xFFFFFFFF

/-- The number that begins with the byte `b` and goes on with `i` more bytes. -/
def ebmlNumber (b : UInt8) (i : Nat) (bytes : List UInt8) : Nat :=
  let lenMask := 2 ^ (7 - i)
  let num := b.toNat % lenMask
  let numFfs := (if num = lenMask - 1 then 1 else 0) + bytes.count 255
  if i + 1 = numFfs then ebmlUintInvalid else beValue num bytes

/-- `ebml_read_vlen_uint`, or `none` if it reads past the end of the buffer. -/
def ebmlReadVlenUint : List UInt8 → Option (Nat × Option Nat)
  | [] => none
  | b :: buffer =>
    let i := leadingZeros 8 b
    if 8 ≤ i then some (ebmlUintInvalid, none)
    else if buffer.length < i then none
    else some (ebmlNumber b i (buffer.take i), some (i + 1))

/-- `ebml_read_vlen_int`, or `none` if it reads past the end of the buffer or shifts the
`int` one by more than its width. -/
def ebmlReadVlenInt (buffer : List UInt8) : Option (Int × Option Nat) :=
  match ebmlReadVlenUint buffer with
  | none => none
  | some (unum, length) =>
    if unum = ebmlUintInvalid then some (ebmlIntInvalid, none)
    else
      match length with
      | none => none
      | some l => if 31 < 7 * l - 1 then none else some (unum - (2 ^ (7 * l - 1) - 1), some l)

/-- `ebml_read_id`. -/
def ebmlReadId (r : Reader) : (Nat × Option Nat) × Reader :=
  match r.rest with
  | [] => ((ebmlIdInvalid, none), r.skip 1)
  | b :: rest =>
    let i := leadingZeros 4 b
    if 4 ≤ i then ((ebmlIdInvalid, none), r.skip 1)
    else
      let id := if rest.length < i then 0xFFFFFF00 else beValue b.toNat (rest.take i)
      ((id, some (i + 1)), r.skip (i + 1))

/-- `ebml_read_length`. -/
def ebmlReadLength (r : Reader) : (Nat × Option Nat) × Reader :=
  match r.rest with
  | [] => ((ebmlUintInvalid, none), r.skip 1)
  | b :: rest =>
    let i := leadingZeros 8 b
    if 8 ≤ i then ((ebmlUintInvalid, none), r.skip 1)
    else
      let len := if rest.length < i then 0xFFFFFFFFFFFFFF00 else ebmlNumber b i (rest.take i)
      ((len, some (i + 1)), r.skip (i + 1))

/-- The length of the number that an element holds, and the bytes of its code, unless
`ebml_read_uint` and `ebml_read_int` refuse it. -/
def ebmlNumberLength (r : Reader) : Option (Nat × Nat) × Reader :=
  let ((len, l), r) := ebmlReadLength r
  match l with
  | none => (none, r)
  | some l => (if len = ebmlUintInvalid ∨ len < 1 ∨ 8 < len then none else some (len, l), r)

/-- `ebml_read_uint`. -/
def ebmlReadUint (r : Reader) : (Nat × Option Nat) × Reader :=
  match ebmlNumberLength r with
  | (none, r) => ((ebmlUintInvalid, none), r)
  | (some (len, l), r) =>
    let (bytes, r) := r.read len
    ((if bytes.length < len then 0xFFFFFFFFFFFFFF00 else beValue 0 bytes, some (len + l)), r)

/-- `ebml_read_skip`.  `none` stands for a skip backwards, to which a length that the end of
the stream cuts off leads. -/
def ebmlReadSkip (r : Reader) : Option (Option Nat × Reader) :=
  let ((len, l), r) := ebmlReadLength r
  match l with
  | none => some (none, r)
  | some l =>
    if len = ebmlUintInvalid then some (none, r)
    else if 2 ^ 63 ≤ len then none
    else some (some (len + l), r.skip len)

/-! ## What is written -/

/-- The numbers of which the code in `w` bytes can be read. -/
structure Coded (w n : Nat) : Prop where
  pos : 0 < w
  le : w ≤ 8
  lt : n + 1 < 2 ^ (7 * w)

variable {w n : Nat} {r : Reader} {rest : List UInt8}

theorem ebmlNumber_vlen {b : UInt8} (hw : w < 8) (hn : n + 1 < 2 ^ (7 * (w + 1)))
    (hb : b.toNat = 2 ^ (7 - w) + n / 256 ^ w) (htop : n / 256 ^ w < 2 ^ (7 - w)) :
    ebmlNumber b w (beBytes w n) = n := by
  have hmod : b.toNat % 2 ^ (7 - w) = n / 256 ^ w := by
    rw [hb, Nat.add_mod_left, Nat.mod_eq_of_lt htop]
  have hvalue : beValue (n / 256 ^ w) (beBytes w n) = n := by
    rw [beValue_beBytes, Nat.mul_comm, Nat.div_add_mod]
  have hones : w + 1 ≠ (if n / 256 ^ w = 2 ^ (7 - w) - 1 then 1 else 0) +
      (beBytes w n).count 255 := by
    have hle : (beBytes w n).count 255 ≤ w := by
      have := List.count_le_length (a := (255 : UInt8)) (l := beBytes w n)
      rwa [length_beBytes] at this
    intro heq
    split at heq
    case isTrue hfirst =>
      have hmax := (count_beBytes w n).mp (by omega)
      have hdiv := Nat.div_add_mod n (256 ^ w)
      rw [pow_vlen hw] at hn
      rw [hfirst] at hdiv
      have hpos : 0 < 2 ^ (7 - w) := Nat.pow_pos (by decide)
      have hprod : 256 ^ w * (2 ^ (7 - w) - 1) + 256 ^ w = 2 ^ (7 - w) * 256 ^ w := by
        rw [← Nat.mul_succ, Nat.succ_eq_add_one, Nat.sub_add_cancel hpos, Nat.mul_comm]
      omega
    case isFalse => omega
  simp only [ebmlNumber, hmod, if_neg hones, hvalue]

theorem ebmlReadVlenUint_vlen (h : Coded w n) (rest : List UInt8) :
    ebmlReadVlenUint (vlen w n ++ rest) = some (n, some w) := by
  obtain ⟨w, rfl⟩ : ∃ k, w = k + 1 := ⟨w - 1, by have := h.pos; omega⟩
  have hw : w < 8 := h.le
  obtain ⟨b, hvlen, hb, htop⟩ := vlen_succ hw (Nat.lt_of_succ_lt h.lt)
  have hlead : leadingZeros 8 b = w := leadingZeros_first hw (Nat.le_refl _) hb htop
  have hlen : ¬ (beBytes w n ++ rest).length < w := by simp
  rw [hvlen, List.cons_append, ebmlReadVlenUint]
  simp only [hlead, if_neg (Nat.not_le.mpr hw), if_neg hlen]
  rw [List.take_left' (length_beBytes w n), ebmlNumber_vlen hw h.lt hb htop]

theorem ebmlReadLength_vlen (h : Coded w n) (hr : r.rest = vlen w n ++ rest) :
    ebmlReadLength r = ((n, some w), r.advance (vlen w n) rest) := by
  obtain ⟨w, rfl⟩ : ∃ k, w = k + 1 := ⟨w - 1, by have := h.pos; omega⟩
  have hw : w < 8 := h.le
  obtain ⟨b, hvlen, hb, htop⟩ := vlen_succ hw (Nat.lt_of_succ_lt h.lt)
  have hlead : leadingZeros 8 b = w := leadingZeros_first hw (Nat.le_refl _) hb htop
  have hlen : ¬ (beBytes w n ++ rest).length < w := by simp
  have hskip : r.skip (w + 1) = r.advance (vlen (w + 1) n) rest := by
    have := Reader.skip_append hr
    rwa [length_vlen] at this
  rw [hvlen, List.cons_append] at hr
  rw [ebmlReadLength, hr]
  simp only [hlead, if_neg (Nat.not_le.mpr hw), if_neg hlen]
  rw [List.take_left' (length_beBytes w n), ebmlNumber_vlen hw h.lt hb htop, hskip]

/-- The ids that take `w` bytes. -/
structure IsId (w id : Nat) : Prop where
  pos : 0 < w
  le : w ≤ 4
  lo : 2 ^ (7 * w) ≤ id
  hi : id < 2 * 2 ^ (7 * w)

theorem ebmlReadId_id {id : Nat} (h : IsId w id) (hr : r.rest = beBytes w id ++ rest) :
    ebmlReadId r = ((id, some w), r.advance (beBytes w id) rest) := by
  obtain ⟨w, rfl⟩ : ∃ k, w = k + 1 := ⟨w - 1, by have := h.pos; omega⟩
  have hw : w < 4 := h.le
  have hsum : 2 ^ (7 * (w + 1)) + (id - 2 ^ (7 * (w + 1))) = id := Nat.add_sub_of_le h.lo
  have hlow : id - 2 ^ (7 * (w + 1)) < 2 ^ (7 * (w + 1)) := by have := h.hi; omega
  obtain ⟨b, hvlen, hb, htop⟩ := vlen_succ (Nat.lt_trans hw (by decide)) hlow
  have hbytes : beBytes (w + 1) id = b :: beBytes w id := by
    have hfirst : beBytes w (id - 2 ^ (7 * (w + 1))) = beBytes w id := by
      rw [← beBytes_mul_add w (2 ^ (7 - w)), ← pow_vlen (Nat.lt_trans hw (by decide)), hsum]
    rw [vlen, hsum, hfirst] at hvlen
    exact hvlen
  have hlead : leadingZeros 4 b = w := leadingZeros_first hw (by decide) hb htop
  have hlen : ¬ (beBytes w id ++ rest).length < w := by simp
  have hskip : r.skip (w + 1) = r.advance (beBytes (w + 1) id) rest := by
    have := Reader.skip_append hr
    rwa [length_beBytes] at this
  have hvalue : beValue b.toNat (beBytes w id) = id := by
    have := beValue_beBytes (w + 1) 0 id
    rw [hbytes, beValue, Nat.zero_mul, Nat.zero_add, Nat.zero_mul, Nat.zero_add] at this
    rw [this, Nat.mod_eq_of_lt]
    have hi := h.hi
    have hpow : 2 * 2 ^ (7 * (w + 1)) ≤ 256 ^ (w + 1) := by
      rw [← Nat.pow_succ', show (256 : Nat) = 2 ^ 8 from rfl, ← Nat.pow_mul]
      exact Nat.pow_le_pow_right (by decide) (by omega)
    omega
  rw [hbytes, List.cons_append] at hr
  rw [ebmlReadId, hr]
  simp only [hlead, if_neg (Nat.not_le.mpr hw), if_neg hlen]
  rw [List.take_left' (length_beBytes w id), hvalue, hskip, hbytes]

/-- A number that is the content of an element. -/
theorem ebmlReadUint_content {content : List UInt8} (hw : Coded w content.length)
    (hpos : content ≠ []) (hlen : content.length ≤ 8)
    (hr : r.rest = vlen w content.length ++ content ++ rest) :
    ebmlReadUint r = ((beValue 0 content, some (content.length + w)),
      r.advance (vlen w content.length ++ content) rest) := by
  rw [List.append_assoc] at hr
  have hlt : ¬ (content.length = ebmlUintInvalid ∨ content.length < 1 ∨ 8 < content.length) := by
    have := List.length_pos_iff.mpr hpos
    simp only [ebmlUintInvalid]
    omega
  have hnum : ebmlNumberLength r = (some (content.length, w),
      r.advance (vlen w content.length) (content ++ rest)) := by
    rw [ebmlNumberLength, ebmlReadLength_vlen hw hr]
    simp only [if_neg hlt]
  rw [ebmlReadUint, hnum]
  simp only [Reader.read_append (Reader.advance_rest _ _ _), Reader.advance_advance,
    if_neg (Nat.lt_irrefl _)]

/-- Any element can be skipped. -/
theorem ebmlReadSkip_content {content : List UInt8} (hw : Coded w content.length)
    (hr : r.rest = vlen w content.length ++ content ++ rest) :
    ebmlReadSkip r = some (some (content.length + w),
      r.advance (vlen w content.length ++ content) rest) := by
  rw [List.append_assoc] at hr
  have hlt : content.length < 2 ^ 56 := by
    have hpow : 2 ^ (7 * w) ≤ 2 ^ 56 := Nat.pow_le_pow_right (by decide) (by have := hw.le; omega)
    have := hw.lt
    omega
  have hne : content.length ≠ ebmlUintInvalid := by
    simp only [ebmlUintInvalid]
    omega
  rw [ebmlReadSkip, ebmlReadLength_vlen hw hr]
  simp only [if_neg hne, if_neg (show ¬ 2 ^ 63 ≤ content.length by omega)]
  rw [Reader.skip_append (Reader.advance_rest _ _ _), Reader.advance_advance]

end MPlayer
