import MPlayer.Lib.Sse

/-!
# The metrics of inverse telecine

`pullup` compares blocks of eight pixels in four lines of a field.  `diff_y`, `licomb_y` and `var_y`
measure the difference of two fields, the comb between them, and the variation in one.  They have
a second version for SSE2, which takes eight pixels at once.

A pointer is a number, and the planes are in one memory.
-/

namespace MPlayer.Pullup

open Lib Lib.M128

/-- The bytes of all planes. -/
abbrev Memory := Int → UInt8

/-- A pixel as an `int`. -/
def pixel (mem : Memory) (p : Int) : Int := (mem p).toNat

/-! ## The metrics in C -/

/-- `ABS`, in 32 bits. -/
def abs32 (a : Int) : Int :=
  let x := BitVec.ofInt 32 a
  ((x ^^^ x.sshiftRight 31) - x.sshiftRight 31).toInt

/-- The loop over `i` lines, which adds up what `line` gives for the two blocks. -/
def lines (line : Int → Int → Int) (s : Int) : Nat → Int → Int → Int → Int
  | 0, _, _, diff => diff
  | i + 1, a, b, diff => lines line s i (a + s) (b + s) (diff + line a b)

/-- `diff_y`. -/
def diffY (mem : Memory) (a b s : Int) : Int :=
  lines (fun a b => ∑ j : Fin 8, abs32 (pixel mem (a + j) - pixel mem (b + j))) s 4 a b 0

/-- `licomb_y`. -/
def licombY (mem : Memory) (a b s : Int) : Int :=
  lines (fun a b => ∑ j : Fin 8,
    (abs32 (2 * pixel mem (a + j) - pixel mem (b + j - s) - pixel mem (b + j)) +
      abs32 (2 * pixel mem (b + j) - pixel mem (a + j) - pixel mem (a + j + s)))) s 4 a b 0

/-- `var_y`, which does not look at `b`. -/
def varY (mem : Memory) (a b s : Int) : Int :=
  4 * lines (fun a _ => ∑ j : Fin 8, abs32 (pixel mem (a + j) - pixel mem (a + j + s))) s 3 a b 0

/-! ## The metrics in SSE2 -/

/-- `diff_y_sse2`. -/
def diffYSse2 (mem : Memory) (a b s : Int) : Lanes Int := do
  let mma := loadlEpi64 mem a
  let mmb := loadlEpi64 mem b
  let a := a + s
  let b := b + s
  let mma := loadhPd mma mem a
  let mmb := loadhPd mmb mem b
  let a := a + s
  let b := b + s
  let res := sadEpu8 mma mmb
  let mma := loadlEpi64 mem a
  let mmb := loadlEpi64 mem b
  let a := a + s
  let b := b + s
  let mma := loadhPd mma mem a
  let mmb := loadhPd mmb mem b
  let res ← addEpi16 res (sadEpu8 mma mmb)
  -- sum of the high and the low result
  let res ← addEpi16 res (srliSi128 res 8)
  return extractEpi16 res 0

/-- `loadu8u16`. -/
def loadu8u16 (mem : Memory) (p : Int) : M128 := unpackloEpi8 (loadlEpi64 mem p) setzeroSi128

/-- `mmabs16`. -/
def mmabs16 (v : M128) : M128 := maxEpi16 (subEpi16 setzeroSi128 v) v

/-- The loop of `licomb_y_sse2`. -/
def licombTurns (mem : Memory) (s : Int) : Nat → Int → Int → M128 → M128 → M128 → Lanes M128
  | 0, _, _, _, _, res => return res
  | i + 1, a, b, mma, mmbprev, res => do
    let mmb := loadu8u16 mem b
    let mmanext := loadu8u16 mem (a + s)
    let tmpa ← addEpi16 mma mma
    let tmpa := subEpi16 tmpa mmbprev
    let tmpa := subEpi16 tmpa mmb
    let res ← addEpi16 res (mmabs16 tmpa)
    let tmpb ← addEpi16 mmb mmb
    let tmpb := subEpi16 tmpb mma
    let tmpb := subEpi16 tmpb mmanext
    let res ← addEpi16 res (mmabs16 tmpb)
    licombTurns mem s i (a + s) (b + s) mmanext mmb res

/-- `licomb_y_sse2`. -/
def licombYSse2 (mem : Memory) (a b s : Int) : Lanes Int := do
  let res := setzeroSi128
  let mmbprev := loadu8u16 mem (b - s)
  let mma := loadu8u16 mem a
  let res ← licombTurns mem s 4 a b mma mmbprev res
  -- eight sums to four, to two, to one
  let res ← addEpi16 res (srliSi128 res 8)
  let res ← addEpi16 res (srliSi128 res 4)
  let res ← addEpi16 res (srliSi128 res 2)
  return extractEpi16 res 0

/-- `var_y_sse2`. -/
def varYSse2 (mem : Memory) (a _b s : Int) : Lanes Int := do
  let a0 := loadlEpi64 mem a
  let a1 := loadlEpi64 mem (a + s)
  let a2 := loadlEpi64 mem (a + 2 * s)
  let a3 := loadlEpi64 mem (a + 3 * s)
  let res := sadEpu8 a0 a1
  let res ← addEpi16 res (sadEpu8 a1 a2)
  let res ← addEpi16 res (sadEpu8 a2 a3)
  return 4 * extractEpi16 res 0

/-! ## Pixels and words -/

/-- The sign of a number, on all bits. -/
theorem sshiftRight_sign (x : BitVec 32) :
    x.sshiftRight 31 = if x.toInt < 0 then BitVec.allOnes 32 else 0#32 := by
  have hlt := BitVec.toInt_lt (x := x)
  have hle := BitVec.le_toInt x
  apply BitVec.eq_of_toInt_eq
  rw [BitVec.toInt_sshiftRight, Int.shiftRight_eq_div_pow]
  split
  · change x.toInt / 2147483648 = -1
    omega
  · change x.toInt / 2147483648 = 0
    omega

theorem abs32_eq {a : Int} (hlo : -2 ^ 31 < a) (hhi : a < 2 ^ 31) : abs32 a = a.natAbs := by
  have hx : (BitVec.ofInt 32 a).toInt = a := by
    rw [BitVec.toInt_ofInt]
    exact Int.bmod_eq_of_le (by omega) (by omega)
  unfold abs32
  dsimp only
  rw [sshiftRight_sign, hx]
  split
  · next hneg =>
    have hnot : (BitVec.ofInt 32 a ^^^ BitVec.allOnes 32) - BitVec.allOnes 32 =
        -BitVec.ofInt 32 a := by
      rw [BitVec.xor_allOnes, BitVec.neg_eq_not_add, BitVec.sub_eq_add_neg]
      rfl
    rw [hnot, BitVec.toInt_neg, hx, Int.bmod_eq_of_le (by omega) (by omega)]
    omega
  · rw [BitVec.xor_zero, BitVec.sub_zero, hx]
    omega

theorem pixel_range (mem : Memory) (p : Int) : 0 ≤ pixel mem p ∧ pixel mem p ≤ 255 := by
  have hlt := (mem p).toNat_lt
  unfold pixel
  omega

theorem absDiff_pixel (mem : Memory) (p q : Int) :
    (absDiff (mem p) (mem q) : Int) = abs32 (pixel mem p - pixel mem q) := by
  have hp := pixel_range mem p
  have hq := pixel_range mem q
  rw [abs32_eq (by omega) (by omega)]
  unfold absDiff pixel
  omega

/-- The distances of eight pixels and eight others. -/
def distance (mem : Memory) (p q : Int) : Int :=
  ∑ j : Fin 8, abs32 (pixel mem (p + j) - pixel mem (q + j))

theorem distance_eq (mem : Memory) (p q : Int) :
    ((∑ j : Fin 8, absDiff (mem (p + j)) (mem (q + j)) : Nat) : Int) = distance mem p q := by
  rw [Nat.cast_sum]
  exact Finset.sum_congr rfl fun j _ => absDiff_pixel mem _ _

/-- Eight pixels in the low half of a register. -/
def LowPixels (mem : Memory) (p : Int) (v : M128) : Prop :=
    ∀ j : Fin 8, v ⟨j, low_lt j⟩ = mem (p + j)

/-- Eight pixels in the high half of a register. -/
def HighPixels (mem : Memory) (p : Int) (v : M128) : Prop :=
  ∀ j : Fin 8, v ⟨j + 8, high_lt j⟩ = mem (p + j)

section Loads

variable {mem : Memory} {p q : Int} {v w : M128}

theorem lowPixels_loadl (mem : Memory) (p : Int) : LowPixels mem p (loadlEpi64 mem p) :=
  fun j => if_pos j.isLt

theorem lowPixels_loadh (h : LowPixels mem p v) (q : Int) : LowPixels mem p (loadhPd v mem q) :=
  fun j => (if_pos j.isLt).trans (h j)

theorem highPixels_loadh (v : M128) (mem : Memory) (q : Int) :
    HighPixels mem q (loadhPd v mem q) := by
  intro j
  unfold loadhPd
  rw [if_neg (by simp), Nat.add_sub_cancel]

theorem LowPixels.sad (hv : LowPixels mem p v) (hw : LowPixels mem q w) :
    (((sadEpu8 v w).word 0).toNat : Int) = distance mem p q := by
  rw [word_sad_zero, ← distance_eq]
  exact congrArg Nat.cast (Finset.sum_congr rfl fun j _ => by rw [hv j, hw j])

theorem HighPixels.sad (hv : HighPixels mem p v) (hw : HighPixels mem q w) :
    (((sadEpu8 v w).word 4).toNat : Int) = distance mem p q := by
  rw [word_sad_four, ← distance_eq]
  exact congrArg Nat.cast (Finset.sum_congr rfl fun j _ => by rw [hv j, hw j])

theorem word_loadu8u16 (mem : Memory) (p : Int) (i : Fin 8) :
    (((loadu8u16 mem p).word i).toNat : Int) = pixel mem (p + i) := by
  unfold loadu8u16 pixel
  rw [word_unpacklo_zero, lowPixels_loadl mem p i]

end Loads

/-! ## The versions agree -/

theorem diffYSse2_inLanes (mem : Memory) (a b s : Int) :
    InLanes (diffYSse2 mem a b s) (· = diffY mem a b s) := by
  unfold diffYSse2
  dsimp only
  have hsrli : ∀ v : M128, (srliSi128 v 8).word 0 = v.word 4 := fun v => word_srli v 4 0
  -- the sums of the first two lines and of the last two
  have hlow₁ := (lowPixels_loadh (lowPixels_loadl mem a) (a + s)).sad
    (lowPixels_loadh (lowPixels_loadl mem b) (b + s))
  have hhigh₁ := (highPixels_loadh (loadlEpi64 mem a) mem (a + s)).sad
    (highPixels_loadh (loadlEpi64 mem b) mem (b + s))
  have hlow₂ := (lowPixels_loadh (lowPixels_loadl mem (a + s + s)) (a + s + s + s)).sad
    (lowPixels_loadh (lowPixels_loadl mem (b + s + s)) (b + s + s + s))
  have hhigh₂ := (highPixels_loadh (loadlEpi64 mem (a + s + s)) mem (a + s + s + s)).sad
    (highPixels_loadh (loadlEpi64 mem (b + s + s)) mem (b + s + s + s))
  revert hlow₁ hhigh₁ hlow₂ hhigh₂
  generalize hv : sadEpu8 (loadhPd (loadlEpi64 mem a) mem (a + s)) _ = v
  generalize hw : sadEpu8 (loadhPd (loadlEpi64 mem (a + s + s)) mem (a + s + s + s)) _ = w
  have hvle : ∀ i, (v.word i).toNat ≤ 2040 := fun i => by
    rw [← hv]
    exact word_sad_le _ _ i
  have hwle : ∀ i, (w.word i).toNat ≤ 2040 := fun i => by
    rw [← hw]
    exact word_sad_le _ _ i
  intro hlow₁ hhigh₁ hlow₂ hhigh₂
  refine (InLanes.add fun i => ?_).bind fun res hres => ?_
  · have h₁ := hvle i
    have h₂ := hwle i
    omega
  have hle : ∀ i, (res.word i).toNat ≤ 4080 := fun i => by
    rw [hres i]
    exact Nat.add_le_add (hvle i) (hwle i)
  refine (InLanes.add fun i => ?_).bind fun res' hres' => .pure ?_
  · have h₁ := hle i
    have h₂ : ((srliSi128 res 8).word i).toNat ≤ 4080 := word_srli_le hle 4 i
    omega
  · have hsum : ((res'.word 0).toNat : Int) = distance mem a b + distance mem (a + s) (b + s) +
        (distance mem (a + s + s) (b + s + s) + distance mem (a + s + s + s) (b + s + s + s)) := by
      rw [hres' 0, hsrli, hres 0, hres 4, ← hlow₁, ← hhigh₁, ← hlow₂, ← hhigh₂]
      omega
    unfold extractEpi16
    rw [hsum]
    change _ = 0 + distance mem a b + distance mem (a + s) (b + s) +
      distance mem (a + s + s) (b + s + s) + distance mem (a + s + s + s) (b + s + s + s)
    omega

theorem varYSse2_inLanes (mem : Memory) (a b s : Int) :
    InLanes (varYSse2 mem a b s) (· = varY mem a b s) := by
  unfold varYSse2
  dsimp only
  have h₀ := (lowPixels_loadl mem a).sad (lowPixels_loadl mem (a + s))
  have h₁ := (lowPixels_loadl mem (a + s)).sad (lowPixels_loadl mem (a + 2 * s))
  have h₂ := (lowPixels_loadl mem (a + 2 * s)).sad (lowPixels_loadl mem (a + 3 * s))
  refine (InLanes.add fun i => ?_).bind fun res hres => ?_
  · have hle := word_sad_le (loadlEpi64 mem a) (loadlEpi64 mem (a + s)) i
    have hle' := word_sad_le (loadlEpi64 mem (a + s)) (loadlEpi64 mem (a + 2 * s)) i
    omega
  refine (InLanes.add fun i => ?_).bind fun res' hres' => .pure ?_
  · have hle := word_sad_le (loadlEpi64 mem a) (loadlEpi64 mem (a + s)) i
    have hle' := word_sad_le (loadlEpi64 mem (a + s)) (loadlEpi64 mem (a + 2 * s)) i
    have hle'' := word_sad_le (loadlEpi64 mem (a + 2 * s)) (loadlEpi64 mem (a + 3 * s)) i
    rw [hres i]
    omega
  · have hline : ∀ p : Int, (∑ j : Fin 8, abs32 (pixel mem (p + j) - pixel mem (p + j + s))) =
        distance mem p (p + s) := by
      intro p
      refine Finset.sum_congr rfl fun j _ => ?_
      rw [show p + j + s = p + s + j by omega]
    unfold extractEpi16 varY
    rw [hres' 0, hres 0]
    simp only [lines, hline]
    rw [show a + s + s = a + 2 * s by omega, show a + 2 * s + s = a + 3 * s by omega, ← h₀, ← h₁,
      ← h₂]
    omega

/-! ### The comb -/

/-- What a pixel of a line adds to the comb. -/
def combAt (mem : Memory) (s : Int) (j : Fin 8) (a b : Int) : Int :=
  abs32 (2 * pixel mem (a + j) - pixel mem (b + j - s) - pixel mem (b + j)) +
    abs32 (2 * pixel mem (b + j) - pixel mem (a + j) - pixel mem (a + j + s))

theorem lines_sum (line : Fin 8 → Int → Int → Int) (s : Int) (n : Nat) (a b : Int)
    (diff : Fin 8 → Int) :
    ∑ j, lines (line j) s n a b (diff j) = lines (fun a b => ∑ j, line j a b) s n a b (∑ j,
      diff j) := by
  induction n generalizing a b diff with
  | zero => rfl
  | succ n ih =>
    simp only [lines]
    rw [ih, Finset.sum_add_distrib]

/-- One addition of the comb, in one lane. -/
theorem word_mmabs16 {x v w : M128} {i : Fin 8} {n p q : Int}
    (hx : ((x.word i).toNat : Int) = 2 * n)
    (hv : ((v.word i).toNat : Int) = p) (hw : ((w.word i).toNat : Int) = q) (hn : 0 ≤ n ∧ n ≤ 255)
    (hp : 0 ≤ p ∧ p ≤ 255) (hq : 0 ≤ q ∧ q ≤ 255) :
    (((mmabs16 (subEpi16 (subEpi16 x v) w)).word i).toNat : Int) = abs32 (2 * n - p - q) ∧
      abs32 (2 * n - p - q) ≤ 510 := by
  have hholds : M128.Holds ((subEpi16 (subEpi16 x v) w).word i) (2 * n - p - q) := by
    unfold subEpi16
    rw [word_ofWords, word_ofWords]
    refine M128.Holds.sub (M128.Holds.sub ?_ ?_) ?_
    · unfold M128.Holds
      omega
    · unfold M128.Holds
      omega
    · unfold M128.Holds
      omega
  rw [abs32_eq (by omega) (by omega)]
  unfold mmabs16
  rw [word_max_neg hholds (by omega) (by omega)]
  omega

theorem licombTurns_inLanes (mem : Memory) (s : Int) (n : Nat) (a b : Int)
    (mma mmbprev res : M128) (ha : ∀ i, ((mma.word i).toNat : Int) = pixel mem (a + i))
    (hb : ∀ i, ((mmbprev.word i).toNat : Int) = pixel mem (b + i - s))
    (hres : ∀ i, (res.word i).toNat + 1020 * n ≤ 4080) :
    InLanes (licombTurns mem s n a b mma mmbprev res) fun r =>
      ∀ i, (r.word i).toNat ≤ 4080 ∧
        ((r.word i).toNat : Int) = lines (combAt mem s i) s n a b (res.word i).toNat := by
  induction n generalizing a b mma mmbprev res with
  | zero => exact .pure fun i => ⟨hres i, rfl⟩
  | succ n ih =>
    unfold licombTurns
    dsimp only
    have hrange := pixel_range mem
    have hmmb := word_loadu8u16 mem b
    have hnext : ∀ i : Fin 8, (((loadu8u16 mem (a + s)).word i).toNat : Int) =
        pixel mem (a + i + s) := fun i => by
      rw [word_loadu8u16, show a + s + i = a + i + s by omega]
    refine (InLanes.add fun i => ?_).bind fun tmpa htmpa => ?_
    · have hi := ha i
      have hr := hrange (a + i)
      omega
    have hcombA := fun i : Fin 8 => word_mmabs16 (x := tmpa) (n := pixel mem (a + i))
      (by rw [htmpa i, ← ha i]; omega) (hb i) (hmmb i) (hrange _) (hrange _) (hrange _)
    refine (InLanes.add fun i => ?_).bind fun res₁ hres₁ => ?_
    · have hi := hcombA i
      have hr := hres i
      omega
    refine (InLanes.add fun i => ?_).bind fun tmpb htmpb => ?_
    · have hi := hmmb i
      have hr := hrange (b + i)
      omega
    have hcombB := fun i : Fin 8 => word_mmabs16 (x := tmpb) (n := pixel mem (b + i))
      (by rw [htmpb i, ← hmmb i]; omega) (ha i) (hnext i) (hrange _) (hrange _) (hrange _)
    refine (InLanes.add fun i => ?_).bind fun res₂ hres₂ => ?_
    · have hi := hcombA i
      have hi' := hcombB i
      have hr := hres i
      rw [hres₁ i]
      omega
    have hsum : ∀ i, ((res₂.word i).toNat : Int) = (res.word i).toNat + combAt mem s i a b := by
      intro i
      unfold combAt
      rw [hres₂ i, hres₁ i, ← (hcombA i).1, ← (hcombB i).1]
      omega
    have hrest := ih (a + s) (b + s) (loadu8u16 mem (a + s)) (loadu8u16 mem b) res₂
      (word_loadu8u16 mem (a + s))
      (fun i => by rw [hmmb i, show b + s + i - s = b + i by omega]) fun i => by
        have hi := hcombA i
        have hi' := hcombB i
        have hr := hres i
        rw [hres₂ i, hres₁ i]
        omega
    intro sums hsums
    obtain ⟨hlast, htrace⟩ := hrest sums hsums
    refine ⟨fun i => ⟨(hlast i).1, ?_⟩, htrace⟩
    rw [(hlast i).2, hsum i]
    rfl

/-- Eight words are added up in three steps. -/
theorem reduce_inLanes {res : M128} (hle : ∀ i, (res.word i).toNat ≤ 4080) :
    InLanes (do
      let res ← addEpi16 res (srliSi128 res 8)
      let res ← addEpi16 res (srliSi128 res 4)
      let res ← addEpi16 res (srliSi128 res 2)
      return extractEpi16 res 0) (· = ∑ i, ((res.word i).toNat : Int)) := by
  have hmore : ∀ i, ((srliSi128 res 8).word i).toNat ≤ 4080 := word_srli_le hle 4
  refine (InLanes.add fun i => ?_).bind fun res₁ h₁ => ?_
  · have hi := hle i
    have hi' := hmore i
    omega
  have hle₁ : ∀ i, (res₁.word i).toNat ≤ 8160 := fun i => by
    rw [h₁ i]
    exact Nat.add_le_add (hle i) (hmore i)
  have hmore₁ : ∀ i, ((srliSi128 res₁ 4).word i).toNat ≤ 8160 := word_srli_le hle₁ 2
  refine (InLanes.add fun i => ?_).bind fun res₂ h₂ => ?_
  · have hi := hle₁ i
    have hi' := hmore₁ i
    omega
  have hle₂ : ∀ i, (res₂.word i).toNat ≤ 16320 := fun i => by
    rw [h₂ i]
    exact Nat.add_le_add (hle₁ i) (hmore₁ i)
  have hmore₂ : ∀ i, ((srliSi128 res₂ 2).word i).toNat ≤ 16320 := word_srli_le hle₂ 1
  refine (InLanes.add fun i => ?_).bind fun res₃ h₃ => .pure ?_
  · have hi := hle₂ i
    have hi' := hmore₂ i
    omega
  · have hfour : ∀ (v : M128) (i : Fin 8) (h : i.val + 4 < 8),
        (srliSi128 v 8).word i = v.word ⟨i + 4, h⟩ := fun v i h =>
      (word_srli v 4 i).trans (dif_pos h)
    have htwo : ∀ (v : M128) (i : Fin 8) (h : i.val + 2 < 8),
        (srliSi128 v 4).word i = v.word ⟨i + 2, h⟩ := fun v i h =>
      (word_srli v 2 i).trans (dif_pos h)
    have hone : ∀ (v : M128) (i : Fin 8) (h : i.val + 1 < 8),
        (srliSi128 v 2).word i = v.word ⟨i + 1, h⟩ := fun v i h =>
      (word_srli v 1 i).trans (dif_pos h)
    unfold extractEpi16
    rw [h₃ 0, hone res₂ 0 (by decide), h₂ 0, h₂, htwo res₁ 0 (by decide), htwo res₁ _ (by decide),
      h₁ 0, h₁, h₁, h₁, hfour res 0 (by decide), hfour res _ (by decide), hfour res _ (by decide),
      hfour res _ (by decide), Fin.sum_univ_eight]
    change ((_ : Nat) : Int) = ((res.word 0).toNat : Int) + (res.word 1).toNat +
      (res.word 2).toNat + (res.word 3).toNat + (res.word 4).toNat + (res.word 5).toNat +
      (res.word 6).toNat + (res.word 7).toNat
    push_cast
    change ((((res.word 0).toNat : Int) + (res.word 4).toNat + ((res.word 2).toNat +
      (res.word 6).toNat) + ((res.word 1).toNat + (res.word 5).toNat + ((res.word 3).toNat +
      (res.word 7).toNat)))) = _
    omega

theorem licombYSse2_inLanes (mem : Memory) (a b s : Int) :
    InLanes (licombYSse2 mem a b s) (· = licombY mem a b s) := by
  unfold licombYSse2
  dsimp only
  have hturns := licombTurns_inLanes mem s 4 a b _ _ setzeroSi128 (word_loadu8u16 mem a)
    (fun i => by rw [word_loadu8u16, show b - s + i = b + i - s by omega])
    fun i => by rw [word_setzero]; decide
  refine hturns.bind fun res hres => ?_
  intro sums hsums
  obtain ⟨hsum, htrace⟩ := reduce_inLanes (fun i => (hres i).1) sums hsums
  refine ⟨?_, htrace⟩
  have hlines : ∑ i, ((res.word i).toNat : Int) = licombY mem a b s := by
    have hzero : ∀ i : Fin 8, (((setzeroSi128).word i).toNat : Int) = 0 := fun i => by
      rw [word_setzero]
      rfl
    rw [Finset.sum_congr rfl fun i _ => (hres i).2, lines_sum,
      Finset.sum_congr rfl fun i _ => hzero i, Finset.sum_const_zero]
    rfl
  rw [← hlines]
  exact hsum

/-- The SSE2 versions of the metrics give what the ones in C give, and no lane of
an addition wraps around. -/
theorem sse2_metrics_eq (mem : Memory) (a b s : Int) :
    InLanes (diffYSse2 mem a b s) (· = diffY mem a b s) ∧
      InLanes (licombYSse2 mem a b s) (· = licombY mem a b s) ∧
        InLanes (varYSse2 mem a b s) (· = varY mem a b s) :=
  ⟨diffYSse2_inLanes mem a b s, licombYSse2_inLanes mem a b s, varYSse2_inLanes mem a b s⟩

end MPlayer.Pullup
