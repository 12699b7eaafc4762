import MPlayer.Demux.Readers
import Mathlib.Algebra.Group.Nat.Defs

/-!
# Searching for a start code

`demux_pattern_3` reads up to `maxlen` bytes, or up to the first place where three bytes of a
pattern stand.  It looks at the bytes of the window one after another, the last three of them
in `head`, and then reads as many as it looked at, but no more than `maxlen` in all.

What it looked at behind the limit it does not forget.  If the pattern ends there, in the same
packet, it is reported as found.
-/

namespace MPlayer

open Lib

variable {τ : Type} {d d' : Demuxer τ} {fills rest : List (DemuxFill τ)} {w : List UInt8}

/-! ## The code -/

/-- `head |= b` and `head <<= 8`. -/
def shiftIn (head : UInt32) (b : UInt8) : UInt32 := (head ||| b.toUInt32) <<< 8

/-- The inner loop of `demux_pattern_3` over the bytes left in the window: `head` after it, and
how many bytes it looked at. -/
def scanWindow (pat : UInt32) : UInt32 → List UInt8 → UInt32 × Nat
  | head, [] => (head, 0)
  | head, b :: bytes =>
    let head := shiftIn head b
    if head = pat then (head, 1)
    else
      let r := scanWindow pat head bytes
      (r.1, r.2 + 1)

/-- One turn of the outer loop of `demux_pattern_3`: the bytes it stored, and `head`. -/
def patternTurn (fuel : Nat) (fills : List (DemuxFill τ)) (d : Demuxer τ) (maxlen : Int)
    (pat head : UInt32) (totalLen : Int) :
    Option (List UInt8 × UInt32 × Demuxer τ × List (DemuxFill τ)) :=
  let len := d.ds.bufferSize - d.ds.bufferPos
  if 0 ≤ -len then
    (dsFillBuffer fills d).map fun (_, d, fills) => ([], head, d, fills)
  else
    let (head, n) := scanWindow pat head (dsWindow d.ds len)
    let len := if maxlen < totalLen + n then maxlen - totalLen else n
    (demuxReadData fuel fills d len).map fun (mem, d, fills) => (mem, head, d, fills)

/-- Whether the outer loop of `demux_pattern_3` takes another turn. -/
def patternAgain (maxlen : Int) (pat head : UInt32) (totalLen : Int) (eof : Bool) : Bool :=
  (head != pat || totalLen < 3) && totalLen < maxlen && !eof

/-- The outer loop of `demux_pattern_3`. -/
def patternLoop (maxlen : Int) (pat : UInt32) : Nat → List (DemuxFill τ) → Demuxer τ → UInt32 →
    Int → Option (List UInt8 × UInt32 × Demuxer τ × List (DemuxFill τ))
  | 0, _, _, _, _ => none
  | fuel + 1, fills, d, head, totalLen =>
    (patternTurn fuel fills d maxlen pat head totalLen).bind fun (mem, head, d, fills) =>
      let totalLen := totalLen + mem.length
      if patternAgain maxlen pat head totalLen d.ds.eof then
        (patternLoop maxlen pat fuel fills d head totalLen).map
          fun (mem', rest) => (mem ++ mem', rest)
      else some (mem, head, d, fills)

/-- What `demux_pattern_3` returns, `*read`, and the bytes at `mem`. -/
structure PatternResult (τ : Type) where
  found : Bool
  read : Int
  mem : List UInt8
  d : Demuxer τ
  fills : List (DemuxFill τ)

/-- `demux_pattern_3`. -/
def demuxPattern3 (fuel : Nat) (fills : List (DemuxFill τ)) (d : Demuxer τ) (maxlen : Int)
    (pattern : UInt32) : Option (PatternResult τ) :=
  let pat := pattern &&& 0xffffff00
  (patternLoop maxlen pat fuel fills d 0xffffff00 0).map fun (mem, head, d, fills) =>
    ⟨3 ≤ mem.length && head == pat, mem.length, mem, d, fills⟩

/-! ## The last three bytes -/

/-- `head` after the bytes of `xs`. -/
def headAfter (xs : List UInt8) : UInt32 := xs.foldl shiftIn 0xffffff00

/-- The three bytes to look for. -/
def patternBytes (pattern : UInt32) : List UInt8 :=
  [(pattern >>> 24).toUInt8, (pattern >>> 16).toUInt8, (pattern >>> 8).toUInt8]

theorem headAfter_append (xs ys : List UInt8) :
    headAfter (xs ++ ys) = ys.foldl shiftIn (headAfter xs) := List.foldl_append

theorem shiftIn_toNat {head : UInt32} (hlow : head.toNat % 256 = 0) (b : UInt8) :
    (shiftIn head b).toNat = (head.toNat + b.toNat) * 256 % 2 ^ 32 := by
  have hb : b.toNat < 2 ^ 8 := b.toNat_lt
  have hor : head.toNat ||| b.toNat = head.toNat + b.toNat := by
    have hsplit : head.toNat = 2 ^ 8 * (head.toNat / 256) := by omega
    rw [hsplit, Nat.two_pow_add_eq_or_of_lt hb]
  rw [shiftIn, UInt32.toNat_shiftLeft, UInt32.toNat_or, UInt8.toNat_toUInt32, hor, Nat.shiftLeft_eq]
  rfl

theorem shiftIn_low {head : UInt32} (hlow : head.toNat % 256 = 0) (b : UInt8) :
    (shiftIn head b).toNat % 256 = 0 := by
  rw [shiftIn_toNat hlow]
  omega

theorem foldl_shiftIn_low : ∀ (xs : List UInt8) {head : UInt32}, head.toNat % 256 = 0 →
    (xs.foldl shiftIn head).toNat % 256 = 0
  | [], _, h => h
  | b :: xs, _, h => foldl_shiftIn_low xs (shiftIn_low h b)

/-- After three bytes `head` is made of them. -/
theorem headAfter_three (xs : List UInt8) (a b c : UInt8) :
    (headAfter (xs ++ [a, b, c])).toNat = a.toNat * 2 ^ 24 + b.toNat * 2 ^ 16 +
      c.toNat * 2 ^ 8 := by
  have hlow : (headAfter xs).toNat % 256 = 0 := foldl_shiftIn_low xs (by decide)
  have ha := a.toNat_lt
  have hb := b.toNat_lt
  have hc := c.toNat_lt
  rw [headAfter_append, List.foldl_cons, List.foldl_cons, List.foldl_cons, List.foldl_nil,
    shiftIn_toNat (shiftIn_low (shiftIn_low hlow a) b), shiftIn_toNat (shiftIn_low hlow a),
    shiftIn_toNat hlow]
  omega

theorem and_ffffff00 {n : Nat} (hn : n < 2 ^ 32) : n &&& 0xffffff00 = n / 256 * 256 := by
  have hmask : 0xffffff00 = (2 ^ 24 - 1) * 2 ^ 8 := by decide
  have hdiv : n / 256 * 256 = n / 2 ^ 8 % 2 ^ 24 * 2 ^ 8 := by omega
  apply Nat.eq_of_testBit_eq
  intro i
  rw [hdiv, hmask, Nat.testBit_and, Nat.testBit_mul_two_pow, Nat.testBit_mul_two_pow,
    Nat.testBit_two_pow_sub_one, Nat.testBit_mod_two_pow, Nat.testBit_div_two_pow]
  by_cases hi : 8 ≤ i
  · rw [Nat.sub_add_cancel hi]
    simp [hi, Bool.and_comm]
  · simp [hi]

theorem pattern_toNat (pattern : UInt32) :
    (pattern &&& 0xffffff00).toNat = pattern.toNat / 2 ^ 24 % 256 * 2 ^ 24 +
      pattern.toNat / 2 ^ 16 % 256 * 2 ^ 16 + pattern.toNat / 2 ^ 8 % 256 * 2 ^ 8 := by
  have hlt := pattern.toNat_lt
  rw [UInt32.toNat_and, show (0xffffff00 : UInt32).toNat = 0xffffff00 from rfl, and_ffffff00 hlt]
  omega

theorem patternBytes_eq_iff (pattern : UInt32) (a b c : UInt8) :
    patternBytes pattern = [a, b, c] ↔ a.toNat = pattern.toNat / 2 ^ 24 % 256 ∧
      b.toNat = pattern.toNat / 2 ^ 16 % 256 ∧ c.toNat = pattern.toNat / 2 ^ 8 % 256 := by
  rw [patternBytes, List.cons.injEq, List.cons.injEq, List.cons.injEq, ← UInt8.toNat_inj,
    ← UInt8.toNat_inj, ← UInt8.toNat_inj, UInt32.toNat_toUInt8, UInt32.toNat_toUInt8,
    UInt32.toNat_toUInt8, UInt32.toNat_shiftRight, UInt32.toNat_shiftRight,
    UInt32.toNat_shiftRight, Nat.shiftRight_eq_div_pow, Nat.shiftRight_eq_div_pow,
    Nat.shiftRight_eq_div_pow]
  constructor
  · rintro ⟨ha, hb, hc, -⟩
    exact ⟨ha.symm, hb.symm, hc.symm⟩
  · rintro ⟨ha, hb, hc⟩
    exact ⟨ha.symm, hb.symm, hc.symm, rfl⟩

/-- From three bytes on, `head` is the pattern if and only if the bytes end with it. -/
theorem headAfter_eq_iff {xs : List UInt8} (h : 3 ≤ xs.length) (pattern : UInt32) :
    headAfter xs = pattern &&& 0xffffff00 ↔ patternBytes pattern <:+ xs := by
  have hdrop : (xs.drop (xs.length - 3)).length = 3 := by
    rw [List.length_drop]
    omega
  obtain ⟨a, b, c, habc⟩ := List.length_eq_three.mp hdrop
  have hxs : xs = xs.take (xs.length - 3) ++ [a, b, c] := by
    rw [← habc, List.take_append_drop]
  have ha := a.toNat_lt
  have hb := b.toNat_lt
  have hc := c.toNat_lt
  have hsuffix : patternBytes pattern <:+ xs ↔ patternBytes pattern = [a, b, c] := by
    rw [List.suffix_iff_eq_drop, show (patternBytes pattern).length = 3 from rfl, habc]
  rw [hsuffix, patternBytes_eq_iff, hxs, ← UInt32.toNat_inj, headAfter_three, pattern_toNat]
  omega

/-! ## The inner loop -/

/-- The bytes the inner loop looks at: it stops at the first match, or at the end. -/
theorem scanWindow_spec (pat : UInt32) : ∀ (head : UInt32) (bytes : List UInt8),
    (scanWindow pat head bytes).2 ≤ bytes.length ∧
      (scanWindow pat head bytes).1 =
        (bytes.take (scanWindow pat head bytes).2).foldl shiftIn head ∧
      (∀ m, 0 < m → m < (scanWindow pat head bytes).2 → (bytes.take m).foldl shiftIn head ≠ pat) ∧
      ((scanWindow pat head bytes).2 = bytes.length ∨ (scanWindow pat head bytes).1 = pat) ∧
      (bytes ≠ [] → 0 < (scanWindow pat head bytes).2)
  | head, [] => ⟨Nat.le_refl 0, rfl, fun m _ hm => absurd hm (Nat.not_lt_zero m), Or.inl rfl,
      fun h => absurd rfl h⟩
  | head, b :: bytes => by
    rw [scanWindow]
    by_cases hmatch : shiftIn head b = pat
    · simp only [if_pos hmatch]
      exact ⟨Nat.succ_le_succ (Nat.zero_le _), rfl, fun m hpos hm => by omega,
        Or.inr hmatch, fun _ => Nat.zero_lt_one⟩
    · obtain ⟨hle, hhead, hfirst, hend, -⟩ := scanWindow_spec pat (shiftIn head b) bytes
      simp only [if_neg hmatch]
      refine ⟨Nat.succ_le_succ hle, ?_, ?_, ?_, fun _ => Nat.succ_pos _⟩
      · rw [List.take_succ_cons, List.foldl_cons]
        exact hhead
      · intro m hpos hm
        obtain ⟨k, rfl⟩ := Nat.exists_eq_succ_of_ne_zero (Nat.ne_of_gt hpos)
        rw [Nat.succ_eq_add_one, List.take_succ_cons, List.foldl_cons]
        obtain rfl | hk := Nat.eq_zero_or_pos k
        · exact hmatch
        · exact hfirst k hk (Nat.lt_of_succ_lt_succ hm)
      · exact hend.imp (congrArg Nat.succ) id

/-! ## What the search is for -/

/-- The pattern stands in front of the offset `e`. -/
def PatternAt (pattern : UInt32) (data : List UInt8) (e : Nat) : Prop :=
  e ≤ data.length ∧ patternBytes pattern <:+ data.take e

/-- The end of the packet that the byte in front of `limit` is in. -/
def packetEnd : List (List UInt8) → Nat → Nat
  | [], _ => 0
  | p :: ps, limit =>
    if limit ≤ p.length then p.length else p.length + packetEnd ps (limit - p.length)

theorem PatternAt.three_le {pattern : UInt32} {data : List UInt8} {e : Nat}
    (h : PatternAt pattern data e) : 3 ≤ e := by
  have hle := h.2.length_le
  rw [show (patternBytes pattern).length = 3 from rfl, List.length_take] at hle
  omega

theorem PatternAt.head_eq {pattern : UInt32} {data : List UInt8} {e : Nat}
    (h : PatternAt pattern data e) : headAfter (data.take e) = pattern &&& 0xffffff00 := by
  refine (headAfter_eq_iff ?_ pattern).mpr h.2
  rw [List.length_take_of_le h.1]
  exact h.three_le

/-- What is known of the search when it stops: it read `all`, and looked at `looked`, which
may reach behind the limit up to the end `last` of the packet. -/
structure SearchStops (pattern : UInt32) (data : List UInt8) (maxlen : Int) (last : Nat)
    (head : UInt32) (all looked : List UInt8) : Prop where
  head_eq : head = headAfter looked
  all_prefix : all <+: looked
  looked_prefix : looked <+: data
  le : all.length ≤ maxlen.toNat
  cut : looked = all ∨ all.length = maxlen.toNat ∧ looked.length ≤ last
  first : ∀ e < looked.length, ¬ PatternAt pattern data e
  stop : PatternAt pattern data looked.length ∨
    all.length = maxlen.toNat ∧ (maxlen < 3 ∨ looked.length = last) ∨ all = data

/-- A bounded search of `data`: `found` if the pattern ends within the first `maxlen` bytes, and
then `all` are the bytes up to there, else as many as there are of `maxlen`. -/
structure SearchExact (pattern : UInt32) (data : List UInt8) (maxlen : Int) (found : Bool)
    (all : List UInt8) : Prop where
  found_iff : found = true ↔ ∃ e ≤ maxlen.toNat, PatternAt pattern data e
  prefix_eq : all = data.take all.length
  first : found = true → PatternAt pattern data all.length ∧
    ∀ e < all.length, ¬ PatternAt pattern data e
  missed : found = false → all.length = min maxlen.toNat data.length

/-- The pattern is within the limit, or is not seen behind it. -/
def SearchFits (pattern : UInt32) (data : List UInt8) (maxlen : Int) (last : Nat) : Prop :=
  maxlen < 3 ∨ (∃ e ≤ maxlen.toNat, PatternAt pattern data e) ∨
    ∀ e, maxlen.toNat < e → e ≤ last → ¬ PatternAt pattern data e

theorem SearchExact.of_first {pattern : UInt32} {data all : List UInt8} {maxlen : Int}
    (hfront : all = data.take all.length) (hle : all.length ≤ maxlen.toNat)
    (hends : PatternAt pattern data all.length)
    (hfirst : ∀ e < all.length, ¬ PatternAt pattern data e) :
    SearchExact pattern data maxlen true all :=
  ⟨⟨fun _ => ⟨all.length, hle, hends⟩, fun _ => rfl⟩, hfront, fun _ => ⟨hends, hfirst⟩,
    fun hfalse => absurd hfalse (by decide)⟩

theorem SearchExact.of_none {pattern : UInt32} {data all : List UInt8} {maxlen : Int}
    (hfront : all = data.take all.length) (hlen : all.length = min maxlen.toNat data.length)
    (hnone : ∀ e ≤ maxlen.toNat, ¬ PatternAt pattern data e) :
    SearchExact pattern data maxlen false all :=
  ⟨⟨fun hfalse => absurd hfalse (by decide), fun ⟨e, he, hends⟩ => absurd hends (hnone e he)⟩,
    hfront, fun hfalse => absurd hfalse (by decide), fun _ => hlen⟩

namespace SearchStops

variable {pattern head : UInt32} {data all looked : List UInt8} {maxlen : Int} {last : Nat}

theorem looked_eq (h : SearchStops pattern data maxlen last head all looked) :
    looked = data.take looked.length := List.prefix_iff_eq_take.mp h.looked_prefix

/-- What the function returns. -/
theorem found_iff (h : SearchStops pattern data maxlen last head all looked) :
    (3 ≤ all.length && head == pattern &&& 0xffffff00) = true ↔
      3 ≤ all.length ∧ PatternAt pattern data looked.length := by
  have hle := h.all_prefix.length_le
  rw [Bool.and_eq_true, decide_eq_true_eq, beq_iff_eq, h.head_eq]
  refine and_congr_right fun h3 => ?_
  rw [headAfter_eq_iff (Nat.le_trans h3 hle), PatternAt, ← h.looked_eq]
  exact ⟨fun hs => ⟨h.looked_prefix.length_le, hs⟩, fun hs => hs.2⟩

theorem not_found (h : SearchStops pattern data maxlen last head all looked)
    (hnot : ¬ (3 ≤ all.length ∧ PatternAt pattern data looked.length)) :
    (3 ≤ all.length && head == pattern &&& 0xffffff00) = false :=
  Bool.eq_false_iff.mpr fun htrue => hnot (h.found_iff.mp htrue)

/-- A search that saw the pattern is exact unless it saw it behind the limit. -/
theorem exact_iff_of_seen (h : SearchStops pattern data maxlen last head all looked)
    (hseen : PatternAt pattern data looked.length) :
    SearchExact pattern data maxlen (3 ≤ all.length && head == pattern &&& 0xffffff00) all ↔
      SearchFits pattern data maxlen last := by
  have hfront : all = data.take all.length :=
    List.prefix_iff_eq_take.mp (h.all_prefix.trans h.looked_prefix)
  have hlen := (h.all_prefix.trans h.looked_prefix).length_le
  by_cases heq : looked = all
  · rw [heq] at hseen
    have hret := h.found_iff.mpr ⟨hseen.three_le, heq ▸ hseen⟩
    rw [hret]
    exact ⟨fun _ => Or.inr (Or.inl ⟨all.length, h.le, hseen⟩),
      fun _ => .of_first hfront h.le hseen (heq ▸ h.first)⟩
  · obtain ⟨hall, hlast⟩ := h.cut.resolve_left heq
    have hmore : all.length < looked.length :=
      Nat.lt_of_le_of_ne h.all_prefix.length_le
        fun hsame => heq (h.all_prefix.eq_of_length hsame).symm
    have hnone : ∀ e ≤ maxlen.toNat, ¬ PatternAt pattern data e := fun e he => h.first e (by omega)
    by_cases hshort : maxlen < 3
    · rw [h.not_found (by omega)]
      exact ⟨fun _ => Or.inl hshort, fun _ => .of_none hfront (by omega) hnone⟩
    · have hret := h.found_iff.mpr ⟨by omega, hseen⟩
      refine ⟨fun hexact => ?_, fun hfits => ?_⟩
      · obtain ⟨e, he, hends⟩ := hexact.found_iff.mp hret
        exact absurd hends (hnone e he)
      · obtain hlt | ⟨e, he, hends⟩ | hbehind := hfits
        · exact absurd hlt hshort
        · exact absurd hends (hnone e he)
        · exact absurd hseen (hbehind looked.length (by omega) hlast)

/-- A search that did not see the pattern is exact, and nothing is behind its limit. -/
theorem exact_iff_of_unseen (h : SearchStops pattern data maxlen last head all looked)
    (hunseen : ¬ PatternAt pattern data looked.length) :
    SearchExact pattern data maxlen (3 ≤ all.length && head == pattern &&& 0xffffff00) all ↔
      SearchFits pattern data maxlen last := by
  have hfront : all = data.take all.length :=
    List.prefix_iff_eq_take.mp (h.all_prefix.trans h.looked_prefix)
  have hlen := (h.all_prefix.trans h.looked_prefix).length_le
  have hle := h.all_prefix.length_le
  have hnone : ∀ e ≤ looked.length, ¬ PatternAt pattern data e := by
    intro e he
    obtain rfl | hlt := Nat.eq_or_lt_of_le he
    · exact hunseen
    · exact h.first e hlt
  rw [h.not_found fun hseen => hunseen hseen.2]
  obtain ⟨hall, hlast⟩ | hall := h.stop.resolve_left hunseen
  · refine ⟨fun _ => ?_, fun _ =>
      .of_none hfront (by omega) fun e he => hnone e (by omega)⟩
    obtain hshort | hlast := hlast
    · exact Or.inl hshort
    · exact Or.inr (Or.inr fun e _ he => hnone e (by omega))
  · have hdata : all.length = data.length := congrArg List.length hall
    have hnowhere : ∀ e, ¬ PatternAt pattern data e :=
      fun e hends => hnone e (Nat.le_trans hends.1 (by omega)) hends
    have hcut := h.le
    exact ⟨fun _ => Or.inr (Or.inr fun e _ _ => hnowhere e),
      fun _ => .of_none hfront (by omega) fun e _ => hnowhere e⟩

theorem exact_iff (h : SearchStops pattern data maxlen last head all looked) :
    SearchExact pattern data maxlen (3 ≤ all.length && head == pattern &&& 0xffffff00) all ↔
      SearchFits pattern data maxlen last := by
  by_cases hseen : PatternAt pattern data looked.length
  · exact h.exact_iff_of_seen hseen
  · exact h.exact_iff_of_unseen hseen

end SearchStops

end MPlayer
