import Mathlib.Data.List.Basic
import Mathlib.Data.Nat.Bitwise
import Mathlib.Tactic.Ring

/-!
# Numbers and bytes as bits

Numbers are lists of bits, the first bit the most significant: `natBits w v` has the `w` low bits of
`v`, and `bitsNat` goes back.  A list of bytes is the list of its bits, `bytesBits`, and
`BitsAt bs n l` says that the bits of `bs` from position `n` on begin with `l`.  A reader with a
bit position is verified by following the parts of what was written: `bitsAt_append` splits them,
and `BitsAt.one_byte` and `BitsAt.two_bytes` give a part of up to eight bits from its bytes.
-/

namespace Lib

/-! ## Numbers -/

/-- The `w` low bits of a number. -/
def natBits : Nat → Nat → List Bool
  | 0, _ => []
  | w + 1, v => v.testBit w :: natBits w v

/-- The number with these bits. -/
def bitsNat : List Bool → Nat
  | [] => 0
  | b :: l => b.toNat * 2 ^ l.length + bitsNat l

@[simp] theorem natBits_zero (v : Nat) : natBits 0 v = [] := rfl

theorem natBits_succ (w v : Nat) : natBits (w + 1) v = v.testBit w :: natBits w v := rfl

@[simp] theorem length_natBits (w v : Nat) : (natBits w v).length = w := by
  induction w with
  | zero => rfl
  | succ w ih => rw [natBits_succ, List.length_cons, ih]

variable {w n : Nat} {l : List Bool} {bs : List UInt8}

theorem natBits_congr {v v' : Nat} (h : ∀ i < w, v.testBit i = v'.testBit i) :
    natBits w v = natBits w v' := by
  induction w with
  | zero => rfl
  | succ w ih =>
    rw [natBits_succ, natBits_succ, h w (Nat.lt_succ_self w),
      ih fun i hi => h i (Nat.lt_succ_of_lt hi)]

/-- The high bits, then the low bits. -/
theorem natBits_add (a b v : Nat) : natBits (a + b) v = natBits a (v >>> b) ++ natBits b v := by
  induction a with
  | zero => simp
  | succ a ih =>
    rw [Nat.add_right_comm, natBits_succ, natBits_succ, ih, Nat.testBit_shiftRight,
      Nat.add_comm b a, List.cons_append]

theorem natBits_drop {k : Nat} (h : k ≤ w) (v : Nat) :
    (natBits w v).drop k = natBits (w - k) v := by
  obtain ⟨u, rfl⟩ := Nat.exists_eq_add_of_le h
  rw [natBits_add, List.drop_append_of_le_length (by simp), List.drop_of_length_le (by simp),
    Nat.add_sub_cancel_left, List.nil_append]

@[simp] theorem bitsNat_nil : bitsNat [] = 0 := rfl

theorem bitsNat_cons (b : Bool) (l : List Bool) :
    bitsNat (b :: l) = b.toNat * 2 ^ l.length + bitsNat l := rfl

theorem bitsNat_append (l l' : List Bool) :
    bitsNat (l ++ l') = bitsNat l * 2 ^ l'.length + bitsNat l' := by
  induction l with
  | nil => simp
  | cons b l ih =>
    rw [List.cons_append, bitsNat_cons, bitsNat_cons, ih, List.length_append, Nat.pow_add]
    ring

theorem bitsNat_lt (l : List Bool) : bitsNat l < 2 ^ l.length := by
  induction l with
  | nil => simp
  | cons b l ih =>
    rw [bitsNat_cons, List.length_cons, Nat.pow_succ]
    cases b
    · simp; omega
    · simp; omega

/-- A number of `w` bits from its bits. -/
theorem bitsNat_natBits_mod (w v : Nat) : bitsNat (natBits w v) = v % 2 ^ w := by
  induction w with
  | zero => simp [Nat.mod_one]
  | succ w ih =>
    rw [natBits_succ, bitsNat_cons, length_natBits, ih, Nat.mod_pow_succ,
      Nat.testBit_eq_decide_div_mod_eq]
    rcases Nat.mod_two_eq_zero_or_one (v / 2 ^ w) with h | h
    · simp [h]
    · simp [h, Nat.add_comm]

theorem bitsNat_natBits {v : Nat} (h : v < 2 ^ w) : bitsNat (natBits w v) = v := by
  rw [bitsNat_natBits_mod, Nat.mod_eq_of_lt h]

/-- Bits from their number. -/
theorem natBits_bitsNat (l : List Bool) : natBits l.length (bitsNat l) = l := by
  induction l with
  | nil => rfl
  | cons b l ih =>
    have hlt := bitsNat_lt l
    have hbit : ∀ j, (bitsNat (b :: l)).testBit j =
        if j < l.length then (bitsNat l).testBit j else b.toNat.testBit (j - l.length) := by
      intro j
      rw [bitsNat_cons, Nat.mul_comm]
      exact Nat.testBit_two_pow_mul_add b.toNat hlt j
    rw [List.length_cons, natBits_succ, hbit, if_neg (Nat.lt_irrefl _), Nat.sub_self]
    have hlow : natBits l.length (bitsNat (b :: l)) = natBits l.length (bitsNat l) :=
      natBits_congr fun i hi => by rw [hbit, if_pos hi]
    rw [hlow, ih]
    cases b <;> rfl

/-! ## Bytes -/

/-- The bits of some bytes. -/
def bytesBits (bs : List UInt8) : List Bool := bs.flatMap fun b => natBits 8 b.toNat

@[simp] theorem bytesBits_nil : bytesBits [] = [] := rfl

@[simp] theorem bytesBits_cons (b : UInt8) (bs : List UInt8) :
    bytesBits (b :: bs) = natBits 8 b.toNat ++ bytesBits bs := rfl

@[simp] theorem bytesBits_append (bs bs' : List UInt8) :
    bytesBits (bs ++ bs') = bytesBits bs ++ bytesBits bs' :=
  List.flatMap_append

@[simp] theorem length_bytesBits (bs : List UInt8) : (bytesBits bs).length = 8 * bs.length := by
  induction bs with
  | nil => rfl
  | cons b bs ih =>
    rw [bytesBits_cons, List.length_append, length_natBits, ih, List.length_cons]
    ring

theorem bytesBits_drop (bs : List UInt8) (q : Nat) :
    (bytesBits bs).drop (8 * q) = bytesBits (bs.drop q) := by
  induction q generalizing bs with
  | zero => rfl
  | succ q ih =>
    cases bs with
    | nil => simp
    | cons b bs =>
      have hfirst : (bytesBits (b :: bs)).drop 8 = bytesBits bs := List.drop_left' (by simp)
      rw [List.drop_succ_cons, ← ih bs, Nat.mul_succ, Nat.add_comm, ← List.drop_drop, hfirst]

/-- Bits that fill whole bytes are the bits of some bytes. -/
theorem exists_bytesBits (q : Nat) (h : l.length = 8 * q) :
    ∃ bs : List UInt8, bs.length = q ∧ bytesBits bs = l := by
  induction q generalizing l with
  | zero => exact ⟨[], rfl, (List.eq_nil_of_length_eq_zero h).symm⟩
  | succ q ih =>
    obtain ⟨bs, hlen, hbs⟩ := ih (l := l.drop 8) (by rw [List.length_drop]; omega)
    have hhead : (l.take 8).length = 8 := by rw [List.length_take]; omega
    have hlt := bitsNat_lt (l.take 8)
    rw [hhead] at hlt
    refine ⟨UInt8.ofNat (bitsNat (l.take 8)) :: bs, by simp [hlen], ?_⟩
    rw [bytesBits_cons, hbs, UInt8.toNat_ofNat_of_lt' hlt]
    have hbits := natBits_bitsNat (l.take 8)
    rw [hhead] at hbits
    rw [hbits, List.take_append_drop]

/-! ## Parts of the bits -/

/-- The bits from a position on begin with these. -/
def BitsAt (bs : List UInt8) (n : Nat) (l : List Bool) : Prop := l <+: (bytesBits bs).drop n

theorem bitsAt_append {l' : List Bool} :
    BitsAt bs n (l ++ l') ↔ BitsAt bs n l ∧ BitsAt bs (n + l.length) l' := by
  unfold BitsAt
  constructor
  · rintro ⟨r, hr⟩
    refine ⟨⟨l' ++ r, by rw [← hr, List.append_assoc]⟩, ⟨r, ?_⟩⟩
    rw [← List.drop_drop, ← hr, List.append_assoc, List.drop_left]
  · rintro ⟨⟨r, hr⟩, ⟨r', hr'⟩⟩
    refine ⟨r', ?_⟩
    rw [← List.drop_drop, ← hr, List.drop_left] at hr'
    rw [List.append_assoc, hr', hr]

theorem bitsAt_cons {b : Bool} : BitsAt bs n (b :: l) ↔ BitsAt bs n [b] ∧ BitsAt bs (n + 1) l :=
  bitsAt_append (l := [b])

@[simp] theorem bitsAt_nil (bs : List UInt8) (n : Nat) : BitsAt bs n [] := List.nil_prefix

/-- There are bytes that begin with given bits and go on with one bit, as far as is wanted. -/
theorem exists_bitsAt_replicate (l : List Bool) (b : Bool) (k : Nat) :
    ∃ bs, BitsAt bs 0 l ∧ ∀ n j, l.length ≤ n → n + j ≤ k → BitsAt bs n (List.replicate j b) := by
  obtain ⟨bs, -, hbs⟩ := exists_bytesBits (l.length + k)
    (l := l ++ List.replicate (8 * (l.length + k) - l.length) b) (by simp; omega)
  refine ⟨bs, ?_, fun n j hn hj => ?_⟩
  · rw [BitsAt, hbs]
    exact List.prefix_append _ _
  · obtain ⟨i, rfl⟩ := Nat.exists_eq_add_of_le hn
    rw [BitsAt, hbs, ← List.drop_drop, List.drop_left, List.drop_replicate]
    rw [List.prefix_replicate_iff]
    exact ⟨by simp; omega, by simp⟩

/-- The bits at a position inside a byte. -/
theorem bytesBits_drop_eq {b : UInt8} {rest : List UInt8} (h : bs.drop (n / 8) = b :: rest) :
    (bytesBits bs).drop n = natBits (8 - n % 8) b.toNat ++ bytesBits rest := by
  have hm : n % 8 < 8 := Nat.mod_lt n (by decide)
  conv_lhs => rw [← Nat.div_add_mod n 8]
  rw [← List.drop_drop, bytesBits_drop, h, bytesBits_cons,
    List.drop_append_of_le_length (by simp; omega), natBits_drop hm.le]

theorem BitsAt.length_le (h : BitsAt bs n l) (hl : l ≠ []) : n + l.length ≤ 8 * bs.length := by
  have hlen := List.IsPrefix.length_le h
  have hpos := List.length_pos_iff.2 hl
  rw [List.length_drop, length_bytesBits] at hlen
  omega

/-- A part that lies in one byte. -/
theorem BitsAt.one_byte (h : BitsAt bs n l) (hl : l ≠ []) (hin : n % 8 + l.length ≤ 8) :
    ∃ b, bs[n / 8]? = some b ∧ bitsNat l = (b.toNat >>> (8 - n % 8 - l.length)) % 2 ^ l.length := by
  have hle := h.length_le hl
  have hpos := List.length_pos_iff.2 hl
  have hlt : n / 8 < bs.length := by omega
  have hdrop := List.drop_eq_getElem_cons hlt
  refine ⟨bs[n / 8], List.getElem?_eq_getElem hlt, ?_⟩
  have hbits := bytesBits_drop_eq hdrop
  have hsplit := natBits_add l.length (8 - n % 8 - l.length) bs[n / 8].toNat
  rw [Nat.add_sub_cancel' (by omega)] at hsplit
  have heq : l = natBits l.length (bs[n / 8].toNat >>> (8 - n % 8 - l.length)) := by
    obtain ⟨r, hr⟩ := h
    rw [hbits, hsplit, List.append_assoc] at hr
    exact (List.append_inj hr (by simp)).1
  conv_lhs => rw [heq]
  exact bitsNat_natBits_mod _ _

/-- A part that lies in two bytes. -/
theorem BitsAt.two_bytes (h : BitsAt bs n l) (hl : l.length ≤ 8) (hout : 8 < n % 8 + l.length) :
    ∃ b b' : UInt8, bs[n / 8]? = some b ∧ bs[n / 8 + 1]? = some b' ∧
      bitsNat l = (b.toNat % 2 ^ (8 - n % 8)) * 2 ^ (n % 8 + l.length - 8) +
        b'.toNat >>> (16 - n % 8 - l.length) := by
  have hne : l ≠ [] := by
    intro hnil
    rw [hnil, List.length_nil] at hout
    omega
  have hle := h.length_le hne
  have hlt : n / 8 + 1 < bs.length := by omega
  have hdrop := List.drop_eq_getElem_cons (show n / 8 < bs.length by omega)
  have hdrop' := List.drop_eq_getElem_cons hlt
  refine ⟨bs[n / 8], bs[n / 8 + 1], List.getElem?_eq_getElem _, List.getElem?_eq_getElem hlt, ?_⟩
  have hbits := bytesBits_drop_eq hdrop
  rw [hdrop', bytesBits_cons] at hbits
  generalize bs[n / 8 + 1] = b' at *
  generalize bs[n / 8] = b at *
  have hsplit := natBits_add (n % 8 + l.length - 8) (16 - n % 8 - l.length) b'.toNat
  rw [show n % 8 + l.length - 8 + (16 - n % 8 - l.length) = 8 by omega] at hsplit
  have heq : l = natBits (8 - n % 8) b.toNat ++
      natBits (n % 8 + l.length - 8) (b'.toNat >>> (16 - n % 8 - l.length)) := by
    obtain ⟨r, hr⟩ := h
    rw [hbits, hsplit, List.append_assoc, ← List.append_assoc] at hr
    exact (List.append_inj hr (by simp; omega)).1
  have hlow : b'.toNat >>> (16 - n % 8 - l.length) < 2 ^ (n % 8 + l.length - 8) := by
    rw [Nat.shiftRight_eq_div_pow, Nat.div_lt_iff_lt_mul (Nat.two_pow_pos _), ← Nat.pow_add,
      show n % 8 + l.length - 8 + (16 - n % 8 - l.length) = 8 by omega]
    exact b'.toNat_lt
  conv_lhs => rw [heq]
  rw [bitsNat_append, bitsNat_natBits_mod, bitsNat_natBits hlow, length_natBits]

end Lib
