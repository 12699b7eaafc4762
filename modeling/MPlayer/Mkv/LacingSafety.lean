import MPlayer.Mkv.Lacing
import MPlayer.Mkv.Numbers

/-!
# Safety of lacing

What `demux_mkv_read_block_lacing` makes of arbitrary bytes.

*Sizes.*  The sizes of Xiph lacing are the numbers that `xiphCode` writes, or the bytes end in the
middle of one (`xiphSizes_cases`).  The numbers of EBML lacing are read one by one (`EbmlInside`).

*Payloads.*  The sizes are safe exactly if their codes end inside the payload, the count isn't 255,
and the sum of the sizes is no larger than what is left whenever its low 32 bits aren't
(`lacing_safe_iff`).  Then `handle_block` cuts its frames out of the block.
-/

namespace MPlayer

open Lib

/-! ## Safety -/

/-- What is asked of the sizes that a branch reads: they fill their array of at most 256 cells, and
what they add up to is left of the payload. -/
def LacesSafe (laces : Nat) (r : Except Fault (List Nat × List UInt8 × Nat)) : Prop :=
  r ≠ .error .undefined ∧ ∀ sizes rest size, r = .ok (sizes, rest, size) →
    1 ≤ laces ∧ laces ≤ 256 ∧ sizes.length = laces ∧ sizes.sum ≤ size ∧ size = rest.length

/-- `demux_mkv_read_block_lacing` is safe for a payload. -/
def LacingSafe (payload : List UInt8) : Prop :=
  readBlockLacing payload payload.length ≠ .error .undefined ∧
    ∀ laces sizes rest size, readBlockLacing payload payload.length =
      .ok (laces, sizes, rest, size) →
      1 ≤ laces ∧ laces ≤ 256 ∧ sizes.length = laces ∧ sizes.sum ≤ size ∧ size = rest.length

/-- `handle_block` is safe for a block: the sizes are, and all frames are taken out of the block. -/
def BlockSafe (block : List UInt8) : Prop :=
  parseBlock block block.length ≠ .error .undefined ∧
    ∀ b, parseBlock block block.length = .ok b →
      (1 ≤ b.laces ∧ b.laces ≤ 256 ∧ b.laceSize.length = b.laces ∧ b.laceSize.sum ≤ b.length ∧
        b.length = b.block.length) ∧ ∃ frames, cutFrames b.laceSize b.block = .ok frames

/-! ## Sound payloads -/

/-- What the sizes in front of the last one add up to is left, if only its low 32 bits are. -/
def SumFits (total left : Nat) : Prop := total % 2 ^ 32 ≤ left → total ≤ left

/-- A payload of Xiph lacing begins with the codes of `count` sizes. -/
def XiphInside (count : Nat) (buffer : List UInt8) : Prop :=
  ∃ (sizes : List Nat) (rest : List UInt8), sizes.length = count ∧
    buffer = sizes.flatMap xiphCode ++ rest ∧ SumFits (sizes.map (· % 2 ^ 32)).sum rest.length

/-- The numbers of EBML lacing behind the size `prev`, where the sizes before them add up to
`total`: each ends inside the payload, until one is invalid. -/
def EbmlDiffsInside : Nat → Nat → Nat → List UInt8 → Prop
  | 0, _, total, buffer => SumFits total buffer.length
  | n + 1, prev, total, buffer =>
    ∃ snum length, ebmlReadVlenInt buffer = some (snum, length) ∧
      ∀ l, length = some l → snum ≠ ebmlIntInvalid →
        EbmlDiffsInside n ((prev + snum) % 2 ^ 32).toNat
          (total + ((prev + snum) % 2 ^ 32).toNat) (buffer.drop l)

/-- A payload of EBML lacing begins with numbers that end inside it, if the first one isn't
invalid.  With a count of 0 the only size is too large, and with one of 255 none may be valid. -/
def EbmlInside (count : Nat) (buffer : List UInt8) : Prop :=
  ∃ num length, ebmlReadVlenUint buffer = some (num, length) ∧
    ∀ l, length = some l → num ≠ ebmlUintInvalid →
      count ≠ 255 ∧
        if count = 0 then (buffer.drop l).length < num % 2 ^ 32
        else EbmlDiffsInside (count - 1) (num % 2 ^ 32) (num % 2 ^ 32) (buffer.drop l)

/-- The payloads for which reading the sizes is safe. -/
def LacingSound : List UInt8 → Prop
  | flags :: count :: buffer =>
    if (flags &&& 0x06) >>> 1 = 0 then True
    else if (flags &&& 0x06) >>> 1 = 1 then count.toNat ≠ 255 ∧ XiphInside count.toNat buffer
    else if (flags &&& 0x06) >>> 1 = 2 then count.toNat ≠ 255
    else EbmlInside count.toNat buffer
  | _ => True

/-- The blocks for which `handle_block` is safe: the number of the track, the time and the flags are
there, and the payload is sound. -/
def BlockSound (block : List UInt8) : Prop :=
  ∃ num l, ebmlReadVlenUint block = some (num, some l) ∧ l + 3 ≤ block.length ∧
    LacingSound (block.drop (l + 2))

/-! ## Sums -/

theorem sum_mod_two_pow (sizes : List Nat) :
    (sizes.map (· % 2 ^ 32)).sum % 2 ^ 32 = sizes.sum % 2 ^ 32 := by
  induction sizes with
  | nil => rfl
  | cons n sizes ih =>
    rw [List.map_cons, List.sum_cons, List.sum_cons]
    omega

/-- The size of the last frame, and what all of them add up to. -/
theorem lastSize_fits {total left : Nat} (hle : total % 2 ^ 32 ≤ left) :
    total + (left - total % 2 ^ 32) % 2 ^ 32 ≤ left ↔ total ≤ left := by
  omega

/-! ## Xiph lacing -/

theorem xiphCode_add (n : Nat) : xiphCode (n + 255) = 0xFF :: xiphCode n := by
  rw [xiphCode, xiphCode, Nat.add_div_right n (by decide), Nat.add_mod_right, List.replicate_succ,
    List.cons_append]

theorem xiphCode_byte {b : UInt8} (hb : b ≠ 0xFF) : xiphCode b.toNat = [b] := by
  have hlt : b.toNat < 255 := by
    have hle : b.toNat < 256 := b.toNat_lt
    have hne : b.toNat ≠ 255 := fun h => hb (UInt8.toNat_inj.mp h)
    omega
  rw [xiphCode, Nat.div_eq_of_lt hlt, Nat.mod_eq_of_lt hlt]
  simp

/-- The bytes begin with the code of a size, or reading one goes behind their end. -/
theorem xiphSize_cases (buffer : List UInt8) :
    (∃ n rest, buffer = xiphCode n ++ rest) ∨
      ∀ lace, xiphSize buffer buffer.length lace = .error .undefined := by
  induction buffer with
  | nil => exact .inr fun lace => rfl
  | cons b buffer ih =>
    by_cases hb : b = 0xFF
    · subst hb
      cases ih with
      | inl h =>
        obtain ⟨n, rest, rfl⟩ := h
        exact .inl ⟨n + 255, rest, by rw [xiphCode_add]; rfl⟩
      | inr h =>
        refine .inr fun lace => ?_
        rw [xiphSize, List.length_cons, if_neg (Nat.succ_ne_zero _)]
        simp only [if_true, Nat.add_sub_cancel]
        exact h _
    · exact .inl ⟨b.toNat, buffer, by rw [xiphCode_byte hb]; rfl⟩

/-- The bytes begin with the codes of `n` sizes, or reading them goes behind their end. -/
theorem xiphSizes_cases : ∀ (n : Nat) (buffer : List UInt8),
    (∃ (sizes : List Nat) (rest : List UInt8), sizes.length = n ∧
      buffer = sizes.flatMap xiphCode ++ rest) ∨
      ∀ total, xiphSizes n buffer buffer.length total = .error .undefined
  | 0, buffer => .inl ⟨[], buffer, rfl, rfl⟩
  | n + 1, buffer => by
    cases xiphSize_cases buffer with
    | inr h =>
      refine .inr fun total => ?_
      rw [xiphSizes, h, error_bind]
    | inl h =>
      obtain ⟨m, rest, rfl⟩ := h
      cases xiphSizes_cases n rest with
      | inl h =>
        obtain ⟨sizes, rest, rfl, rfl⟩ := h
        exact .inl ⟨m :: sizes, rest, rfl, by rw [List.flatMap_cons, List.append_assoc]⟩
      | inr h =>
        refine .inr fun total => ?_
        rw [xiphSizes, xiphSize_code m rest 0 (by simp), ok_bind]
        simp only [List.length_append, Nat.add_sub_cancel_left, h, error_bind]

variable {laces num l : Nat} {buffer block : List UInt8}

/-- The sizes in front of the last one, and what they leave for it. -/
theorem lacesSafe_last {sizes : List Nat} {rest : List UInt8} (h256 : laces ≤ 256)
    (hlength : sizes.length + 1 = laces) :
    LacesSafe laces (if rest.length < sizes.sum % 2 ^ 32 then .error .refused
      else .ok (sizes ++ [(rest.length - sizes.sum % 2 ^ 32) % 2 ^ 32], rest, rest.length)) ↔
      SumFits sizes.sum rest.length := by
  by_cases hlt : rest.length < sizes.sum % 2 ^ 32
  · rw [if_pos hlt]
    refine ⟨fun _ hle => absurd hle (Nat.not_le.mpr hlt),
      fun _ => ⟨by simp, fun sizes rest size h => ?_⟩⟩
    cases h
  · rw [if_neg hlt]
    have hle := Nat.not_lt.mp hlt
    constructor
    · rintro ⟨-, h⟩ -
      obtain ⟨-, -, -, hsum, -⟩ := h _ _ _ rfl
      rw [List.sum_append, List.sum_singleton] at hsum
      exact (lastSize_fits hle).mp hsum
    · intro h
      refine ⟨by simp, fun sizes' rest' size heq => ?_⟩
      cases heq
      refine ⟨by omega, h256, by simpa using hlength, ?_, rfl⟩
      rw [List.sum_append, List.sum_singleton]
      exact (lastSize_fits hle).mpr (h hle)

theorem xiphLaces_sizes (h256 : laces ≤ 256) {sizes : List Nat} {rest : List UInt8}
    (hlength : sizes.length = laces - 1) :
    LacesSafe laces (xiphLaces laces (sizes.flatMap xiphCode ++ rest)
        (sizes.flatMap xiphCode ++ rest).length) ↔
      laces ≠ 0 ∧ SumFits (sizes.map (· % 2 ^ 32)).sum rest.length := by
  have hread := xiphSizes_code sizes rest (sizes.flatMap xiphCode ++ rest).length 0 (by simp)
    (by decide)
  rw [hlength, Nat.zero_add, List.length_append, Nat.add_sub_cancel_left,
    ← sum_mod_two_pow sizes] at hread
  rw [xiphLaces, List.length_append, hread, ok_bind]
  dsimp only
  by_cases hzero : laces = 0
  · have hnil : sizes = [] := List.length_eq_zero_iff.mp (by omega)
    subst hzero hnil
    simp [LacesSafe]
  · rw [if_neg hzero, lacesSafe_last h256 (by rw [List.length_map]; omega)]
    exact ⟨fun h => ⟨hzero, h⟩, fun h => h.2⟩

theorem xiphLaces_safe (h256 : laces ≤ 256) (buffer : List UInt8) :
    LacesSafe laces (xiphLaces laces buffer buffer.length) ↔
      laces ≠ 0 ∧ XiphInside (laces - 1) buffer := by
  constructor
  · intro h
    cases xiphSizes_cases (laces - 1) buffer with
    | inl hin =>
      obtain ⟨sizes, rest, hlength, rfl⟩ := hin
      obtain ⟨hzero, hfits⟩ := (xiphLaces_sizes h256 hlength).mp h
      exact ⟨hzero, sizes, rest, hlength, rfl, hfits⟩
    | inr hout =>
      refine absurd ?_ h.1
      rw [xiphLaces, hout, error_bind]
  · rintro ⟨hzero, sizes, rest, hlength, rfl, hfits⟩
    exact (xiphLaces_sizes h256 hlength).mpr ⟨hzero, hfits⟩

/-! ## EBML lacing -/

/-- A number that is read ends inside the buffer. -/
theorem ebmlReadVlenUint_length (h : ebmlReadVlenUint buffer = some (num, some l)) :
    l ≤ buffer.length := by
  cases buffer with
  | nil => cases h
  | cons b buffer =>
    rw [ebmlReadVlenUint] at h
    split at h
    case isTrue => cases h
    case isFalse =>
        split at h
        case isTrue => cases h
        case isFalse hlen =>
            cases h
            rw [List.length_cons]
            omega

theorem ebmlReadVlenInt_length {snum : Int} (h : ebmlReadVlenInt buffer = some (snum, some l)) :
    l ≤ buffer.length := by
  rw [ebmlReadVlenInt] at h
  split at h
  · cases h
  · rename_i unum length hread
    split at h
    · cases h
    · split at h
      · cases h
      · split at h
        · cases h
        · cases h
          exact ebmlReadVlenUint_length hread

theorem ebmlDiffsInside_succ {n prev total : Nat} {snum : Int}
    (hread : ebmlReadVlenInt buffer = some (snum, some l)) (hvalid : snum ≠ ebmlIntInvalid) :
    EbmlDiffsInside (n + 1) prev total buffer ↔
      EbmlDiffsInside n ((prev + snum) % 2 ^ 32).toNat
        (total + ((prev + snum) % 2 ^ 32).toNat) (buffer.drop l) := by
  constructor
  · rintro ⟨snum', length, h, hinside⟩
    cases hread.symm.trans h
    exact hinside l rfl hvalid
  · intro h
    refine ⟨snum, some l, hread, fun l' hl' _ => ?_⟩
    cases hl'
    exact h

/-- The sizes behind the first one: reading them is refused, or it is undefined and so is the rest,
or their sum is what has to fit. -/
theorem ebmlSizes_spec : ∀ (n prev total : Nat) (buffer : List UInt8),
    (ebmlSizes n buffer buffer.length prev (total % 2 ^ 32) = .error .undefined ∧
      ¬ EbmlDiffsInside n prev total buffer) ∨
    (ebmlSizes n buffer buffer.length prev (total % 2 ^ 32) = .error .refused ∧
      EbmlDiffsInside n prev total buffer) ∨
    ∃ (sizes : List Nat) (rest : List UInt8), sizes.length = n ∧
      ebmlSizes n buffer buffer.length prev (total % 2 ^ 32) =
        .ok (sizes, (total + sizes.sum) % 2 ^ 32, rest, rest.length) ∧
      (EbmlDiffsInside n prev total buffer ↔ SumFits (total + sizes.sum) rest.length)
  | 0, prev, total, buffer => .inr (.inr ⟨[], buffer, rfl, rfl, Iff.rfl⟩)
  | n + 1, prev, total, buffer => by
    cases hread : ebmlReadVlenInt buffer with
    | none =>
      refine .inl ⟨?_, ?_⟩
      · rw [ebmlSizes, hread]
      · rintro ⟨snum, length, h, -⟩
        cases hread.symm.trans h
    | some x =>
      obtain ⟨snum, length⟩ := x
      cases length with
      | none =>
        refine .inr (.inl ⟨?_, snum, none, hread, fun l h => ?_⟩)
        · rw [ebmlSizes, hread]
        · cases h
      | some l =>
        have hl := ebmlReadVlenInt_length hread
        by_cases hinvalid : snum = ebmlIntInvalid
        · refine .inr (.inl ⟨?_, snum, some l, hread, fun _ _ h => absurd hinvalid h⟩)
          rw [ebmlSizes, hread]
          simp only [hinvalid, true_or, if_true]
        · have hround : ebmlSizes (n + 1) buffer buffer.length prev (total % 2 ^ 32) =
              ebmlSizes n (buffer.drop l) (buffer.drop l).length ((prev + snum) % 2 ^ 32).toNat
                ((total + ((prev + snum) % 2 ^ 32).toNat) % 2 ^ 32) >>= fun r =>
              .ok (((prev + snum) % 2 ^ 32).toNat :: r.1, r.2) := by
            rw [ebmlSizes, hread]
            simp only [hinvalid, false_or, if_neg (Nat.not_lt.mpr hl), List.length_drop,
              Nat.mod_add_mod]
          rw [hround, ebmlDiffsInside_succ hread hinvalid]
          obtain ⟨h, hinside⟩ | ⟨h, hinside⟩ | ⟨sizes, rest, hlength, h, hinside⟩ :=
            ebmlSizes_spec n ((prev + snum) % 2 ^ 32).toNat
              (total + ((prev + snum) % 2 ^ 32).toNat) (buffer.drop l)
          · exact .inl ⟨by rw [h, error_bind], hinside⟩
          · exact .inr (.inl ⟨by rw [h, error_bind], hinside⟩)
          · refine .inr (.inr ⟨((prev + snum) % 2 ^ 32).toNat :: sizes, rest,
              congrArg (· + 1) hlength, ?_, ?_⟩)
            · rw [h, ok_bind, List.sum_cons, Nat.add_assoc]
            · rw [hinside, List.sum_cons, Nat.add_assoc]

theorem ebmlLaces_safe (h256 : laces ≤ 256) {count : Nat} (hlaces : laces = (count + 1) % 256)
    (hcount : count < 256) (buffer : List UInt8) :
    LacesSafe laces (ebmlLaces laces buffer buffer.length) ↔ EbmlInside count buffer := by
  cases hread : ebmlReadVlenUint buffer with
  | none =>
    constructor
    · intro h
      refine absurd ?_ h.1
      rw [ebmlLaces, hread]
    · rintro ⟨num, length, h, -⟩
      cases hread.symm.trans h
  | some x =>
    obtain ⟨num, length⟩ := x
    have hrefused : ∀ {r : Except Fault (List Nat × List UInt8 × Nat)}, r = .error .refused →
        LacesSafe laces r := by
      rintro r rfl
      exact ⟨by simp, fun _ _ _ h => by cases h⟩
    cases length with
    | none =>
      refine iff_of_true (hrefused ?_) ⟨num, none, hread, fun l h => ?_⟩
      · rw [ebmlLaces, hread]
      · cases h
    | some l =>
      have hl := ebmlReadVlenUint_length hread
      by_cases hinvalid : num = ebmlUintInvalid
      · refine iff_of_true (hrefused ?_) ⟨num, some l, hread, fun _ _ h => absurd hinvalid h⟩
        rw [ebmlLaces, hread]
        simp only [hinvalid, true_or, if_true]
      · have hinside : EbmlInside count buffer ↔ count ≠ 255 ∧
            if count = 0 then (buffer.drop l).length < num % 2 ^ 32
            else EbmlDiffsInside (count - 1) (num % 2 ^ 32) (num % 2 ^ 32) (buffer.drop l) := by
          constructor
          · rintro ⟨num', length, h, hin⟩
            cases hread.symm.trans h
            exact hin l rfl hinvalid
          · intro h
            refine ⟨num, some l, hread, fun l' hl' _ => ?_⟩
            cases hl'
            exact h
        have hbranch : ebmlLaces laces buffer buffer.length = if laces = 0 then
            .error .undefined else
              ebmlSizes (laces - 2) (buffer.drop l) (buffer.drop l).length (num % 2 ^ 32)
                (num % 2 ^ 32) >>= fun r =>
              if r.2.2.2 < r.2.1 then .error .refused
              else if laces ≤ 1 then .error .undefined
              else .ok (num % 2 ^ 32 :: r.1 ++ [(r.2.2.2 - r.2.1) % 2 ^ 32], r.2.2) := by
          rw [ebmlLaces, hread]
          simp only [hinvalid, false_or, if_neg (Nat.not_lt.mpr hl), List.length_drop]
        rw [hinside, hbranch]
        by_cases h255 : count = 255
        · subst h255
          rw [if_pos hlaces]
          exact iff_of_false (fun h => h.1 rfl) fun h => h.1 rfl
        · have hlaces' : laces = count + 1 := by omega
          rw [if_neg (by omega)]
          cases count with
          | zero =>
            subst hlaces'
            have hnone : ebmlSizes (0 + 1 - 2) (buffer.drop l) (buffer.drop l).length
                (num % 2 ^ 32) (num % 2 ^ 32) =
              .ok ([], num % 2 ^ 32, buffer.drop l, (buffer.drop l).length) := rfl
            rw [hnone, ok_bind, if_pos rfl]
            dsimp only
            by_cases hlt : (buffer.drop l).length < num % 2 ^ 32
            · rw [if_pos hlt]
              exact iff_of_true (hrefused rfl) ⟨h255, hlt⟩
            · rw [if_neg hlt]
              exact iff_of_false (fun h => h.1 rfl) fun h => hlt h.2
          | succ n =>
            subst hlaces'
            have hn : n + 1 + 1 - 2 = n := rfl
            rw [if_neg (Nat.succ_ne_zero n), and_iff_right h255, Nat.add_sub_cancel, hn]
            have hspec := ebmlSizes_spec n (num % 2 ^ 32) (num % 2 ^ 32) (buffer.drop l)
            rw [Nat.mod_mod] at hspec
            obtain ⟨h, hin⟩ | ⟨h, hin⟩ | ⟨sizes, rest, hlength, h, hin⟩ := hspec
            · refine iff_of_false (fun hsafe => hsafe.1 ?_) hin
              rw [h, error_bind]
            · refine iff_of_true (hrefused ?_) hin
              rw [h, error_bind]
            · rw [h, ok_bind, hin]
              dsimp only
              rw [if_neg (show ¬ n + 1 + 1 ≤ 1 by omega), ← List.sum_cons]
              exact lacesSafe_last h256 (by simpa using hlength)

/-! ## Payloads -/

theorem lacingCode_three {flags : UInt8} (h0 : (flags &&& 0x06) >>> 1 ≠ 0)
    (h1 : (flags &&& 0x06) >>> 1 ≠ 1) (h2 : (flags &&& 0x06) >>> 1 ≠ 2) :
    (flags &&& 0x06) >>> 1 = 3 := by
  have hle : ((flags &&& 0x06) >>> 1).toNat ≤ 3 := by
    rw [UInt8.toNat_shiftRight, UInt8.toNat_and, Nat.shiftRight_eq_div_pow]
    exact Nat.div_le_div_right (c := 2) Nat.and_le_right
  have hne : ∀ n : UInt8, (flags &&& 0x06) >>> 1 ≠ n → ((flags &&& 0x06) >>> 1).toNat ≠ n.toNat :=
    fun n h heq => h (UInt8.toNat_inj.mp heq)
  have h0 := hne 0 h0
  have h1 := hne 1 h1
  have h2 := hne 2 h2
  simp only [UInt8.toNat_ofNat] at h0 h1 h2
  exact UInt8.toNat_inj.mp (show _ = 3 by omega)

theorem fixedLaces_safe (h256 : laces ≤ 256) (buffer : List UInt8) :
    LacesSafe laces (.ok (List.replicate laces (buffer.length / laces % 2 ^ 32), buffer,
      buffer.length)) ↔ laces ≠ 0 := by
  constructor
  · rintro ⟨-, h⟩
    exact Nat.pos_iff_ne_zero.mp (h _ _ _ rfl).1
  · intro hne
    refine ⟨by simp, fun sizes rest size h => ?_⟩
    cases h
    refine ⟨Nat.pos_of_ne_zero hne, h256, List.length_replicate, ?_, rfl⟩
    rw [List.sum_replicate_nat]
    exact Nat.le_trans (Nat.mul_le_mul_left laces (Nat.mod_le _ _)) (Nat.mul_div_le _ _)

/-- The sizes of a laced payload are those of its branch. -/
theorem lacingSafe_branch (lacing : Lacing) {flags : UInt8}
    (hflags : (flags &&& 0x06) >>> 1 = lacing.code) (hlaced : lacing ≠ .none) (count : UInt8)
    (buffer : List UInt8) :
    LacingSafe (flags :: count :: buffer) ↔
      LacesSafe (count + 1).toNat (lacing.branch (count + 1).toNat buffer buffer.length) := by
  have hread : readBlockLacing (flags :: count :: buffer) (buffer.length + 2) = _ :=
    readBlockLacing_laced hflags hlaced buffer buffer.length
  rw [LacingSafe, List.length_cons, List.length_cons, hread]
  generalize lacing.branch (count + 1).toNat buffer buffer.length = r
  cases r with
  | error e =>
    rw [error_bind]
    constructor
    · rintro ⟨h, -⟩
      exact ⟨fun he => h (congrArg _ (Except.error.inj he)), fun _ _ _ h => by cases h⟩
    · rintro ⟨h, -⟩
      exact ⟨fun he => h (congrArg _ (Except.error.inj he)), fun _ _ _ _ h => by cases h⟩
  | ok x =>
    obtain ⟨sizes, rest, size⟩ := x
    rw [ok_bind]
    constructor
    · rintro ⟨-, h⟩
      refine ⟨by simp, fun sizes rest size heq => ?_⟩
      cases heq
      exact h _ _ _ _ rfl
    · rintro ⟨-, h⟩
      refine ⟨by simp, fun laces sizes rest size heq => ?_⟩
      cases heq
      exact h _ _ _ rfl

theorem lacingSafe_single (flags : UInt8) (hflags : (flags &&& 0x06) >>> 1 = 0)
    (buffer : List UInt8) : LacingSafe (flags :: buffer) := by
  have hread : readBlockLacing (flags :: buffer) (flags :: buffer).length =
      .ok (1, [buffer.length % 2 ^ 32], buffer, buffer.length) := if_pos hflags
  rw [LacingSafe, hread]
  refine ⟨by simp, fun laces sizes rest size h => ?_⟩
  cases h
  exact ⟨Nat.le_refl 1, by decide, rfl, Nat.mod_le _ _, rfl⟩

theorem lacingSafe_refused {payload : List UInt8}
    (h : readBlockLacing payload payload.length = .error .refused) : LacingSafe payload := by
  rw [LacingSafe, h]
  exact ⟨by simp, fun _ _ _ _ h => by cases h⟩

/-- The number of the laces. -/
theorem laces_toNat (count : UInt8) :
    (count + 1).toNat = (count.toNat + 1) % 256 ∧ (count + 1).toNat ≤ 256 ∧
      ((count + 1).toNat ≠ 0 ↔ count.toNat ≠ 255) ∧
        (count.toNat ≠ 255 → (count + 1).toNat - 1 = count.toNat) := by
  have hlt : count.toNat < 256 := count.toNat_lt
  have heq : (count + 1).toNat = (count.toNat + 1) % 256 := UInt8.toNat_add count 1
  refine ⟨heq, ?_, ?_, ?_⟩ <;> omega

/-- Reading the sizes is safe exactly for sound payloads. -/
theorem lacing_sound_iff (payload : List UInt8) : LacingSafe payload ↔ LacingSound payload := by
  match payload with
  | [] => exact iff_of_true (lacingSafe_refused rfl) trivial
  | [flags] =>
    refine iff_of_true ?_ trivial
    by_cases hflags : (flags &&& 0x06) >>> 1 = 0
    · exact lacingSafe_single flags hflags []
    · exact lacingSafe_refused (if_neg hflags)
  | flags :: count :: buffer =>
    obtain ⟨hlaces, h256, hzero, hpred⟩ := laces_toNat count
    rw [LacingSound]
    split
    case isTrue hflags => exact iff_of_true (lacingSafe_single flags hflags _) trivial
    case isFalse h0 =>
        split
        case isTrue hflags =>
            rw [lacingSafe_branch .xiph hflags (by simp), Lacing.branch, xiphLaces_safe h256, hzero]
            exact and_congr_right fun h => by rw [hpred h]
        case isFalse h1 =>
            split
            case isTrue hflags =>
                exact (lacingSafe_branch .fixed hflags (by simp) count buffer).trans
                  ((fixedLaces_safe h256 buffer).trans hzero)
            case isFalse h2 =>
                exact (lacingSafe_branch (.ebml []) (lacingCode_three h0 h1 h2) (by simp) count
                  buffer).trans (ebmlLaces_safe h256 hlaces count.toNat_lt buffer)

/-! ## Blocks -/

theorem cutFrames_inside (sizes : List Nat) (block : List UInt8) (h : sizes.sum ≤ block.length) :
    ∃ frames, cutFrames sizes block = .ok frames := by
  induction sizes generalizing block with
  | nil => exact ⟨[], rfl⟩
  | cons size sizes ih =>
    rw [List.sum_cons] at h
    obtain ⟨frames, hframes⟩ := ih (block.drop size) (by rw [List.length_drop]; omega)
    refine ⟨block.take size :: frames, ?_⟩
    rw [cutFrames, if_neg (by omega), hframes]
    rfl

/-- A block with its header. -/
theorem parseBlock_header (hread : ebmlReadVlenUint block = some (num, some l))
    (hl : l + 3 ≤ block.length) (h64 : block.length < 2 ^ 64) : ∃ time flags,
    parseBlock block block.length = (do
      let (laces, laceSize, rest, length) ← readBlockLacing (block.drop (l + 2))
        (block.drop (l + 2)).length
      .ok ⟨Int.bmod num (2 ^ 32), time, flags, laces, laceSize, rest, length⟩) := by
  match hdrop : block.drop l with
  | [] | [_] | [_, _] =>
    have hlength := congrArg List.length hdrop
    simp at hlength
    omega
  | hi :: lo :: flags :: rest =>
    refine ⟨Int.bmod (hi.toNat * 256 + lo.toNat) (2 ^ 16), flags, ?_⟩
    have hpayload : block.drop (l + 2) = flags :: rest := by
      rw [← List.drop_drop, hdrop]
      rfl
    have hlength : (block.length + 2 ^ 64 - (l + 2)) % 2 ^ 64 = (flags :: rest).length := by
      rw [← hpayload, List.length_drop]
      omega
    rw [parseBlock, hread]
    simp only [hdrop, hlength, hpayload]

/-- A block that ends in its header. -/
theorem parseBlock_short (hread : ebmlReadVlenUint block = some (num, some l))
    (hl : block.length < l + 3) : parseBlock block block.length = .error .undefined := by
  have hlength : (block.drop l).length < 3 := by
    rw [List.length_drop]
    omega
  rw [parseBlock, hread]
  dsimp only
  split
  · rename_i hdrop
    rw [hdrop] at hlength
    simp at hlength
    omega
  · rfl

theorem blockSafe_header (hread : ebmlReadVlenUint block = some (num, some l))
    (hl : l + 3 ≤ block.length) (h64 : block.length < 2 ^ 64) :
    BlockSafe block ↔ LacingSafe (block.drop (l + 2)) := by
  obtain ⟨time, flags, hparse⟩ := parseBlock_header hread hl h64
  rw [BlockSafe, hparse, LacingSafe]
  generalize readBlockLacing (block.drop (l + 2)) (block.drop (l + 2)).length = r
  cases r with
  | error e =>
    rw [error_bind]
    constructor
    · rintro ⟨h, -⟩
      exact ⟨fun he => h (congrArg _ (Except.error.inj he)), fun _ _ _ _ h => by cases h⟩
    · rintro ⟨h, -⟩
      exact ⟨fun he => h (congrArg _ (Except.error.inj he)), fun _ h => by cases h⟩
  | ok x =>
    obtain ⟨laces, sizes, rest, size⟩ := x
    rw [ok_bind]
    constructor
    · rintro ⟨-, h⟩
      refine ⟨by simp, fun laces sizes rest size heq => ?_⟩
      obtain ⟨rfl, rfl, rfl, rfl⟩ : _ ∧ _ ∧ _ ∧ _ := by simpa using heq
      exact (h _ rfl).1
    · rintro ⟨-, h⟩
      refine ⟨by simp, fun b heq => ?_⟩
      obtain rfl := Except.ok.inj heq
      obtain ⟨h1, h256, hlength, hsum, hsize⟩ := h _ _ _ _ rfl
      exact ⟨⟨h1, h256, hlength, hsum, hsize⟩, cutFrames_inside _ _ (hsize ▸ hsum)⟩

/-- `handle_block` is safe exactly for sound blocks. -/
theorem block_sound_iff (h64 : block.length < 2 ^ 64) : BlockSafe block ↔ BlockSound block := by
  have hnone : ∀ num : Nat, ebmlReadVlenUint block = some (num, none) ∨
      ebmlReadVlenUint block = none → ¬BlockSafe block := by
    rintro num h ⟨hsafe, -⟩
    refine hsafe ?_
    cases h with
    | inl h => rw [parseBlock, h]
    | inr h => rw [parseBlock, h]
  cases hread : ebmlReadVlenUint block with
  | none =>
    refine iff_of_false (hnone 0 (.inr hread)) ?_
    rintro ⟨num, l, h, -⟩
    cases hread.symm.trans h
  | some x =>
    obtain ⟨num, length⟩ := x
    cases length with
    | none =>
      refine iff_of_false (hnone num (.inl hread)) ?_
      rintro ⟨num, l, h, -⟩
      cases hread.symm.trans h
    | some l =>
      have hsound : BlockSound block ↔ l + 3 ≤ block.length ∧ LacingSound (block.drop (l + 2)) := by
        constructor
        · rintro ⟨num', l', h, hin⟩
          cases hread.symm.trans h
          exact hin
        · intro h
          exact ⟨num, l, hread, h⟩
      rw [hsound]
      by_cases hl : l + 3 ≤ block.length
      · rw [blockSafe_header hread hl h64, and_iff_right hl, lacing_sound_iff]
      · exact iff_of_false (fun h => h.1 (parseBlock_short hread (Nat.not_le.mp hl)))
          fun h => hl h.1

/-! ## Results -/

/-- Reading the sizes of a payload is safe exactly if the payload is sound, and `handle_block` is
safe exactly for blocks with a header and a sound payload. -/
theorem lacing_safe_iff (payload block : List UInt8) (h64 : block.length < 2 ^ 64) :
    (LacingSafe payload ↔ LacingSound payload) ∧ (BlockSafe block ↔ BlockSound block) :=
  ⟨lacing_sound_iff payload, block_sound_iff h64⟩

theorem lacing_safe_iff_xiph :
    (LacingSafe [0x02, 1, 3, 10, 20, 30, 40, 50] ↔ LacingSound [0x02, 1, 3, 10, 20, 30, 40, 50]) ∧
      (BlockSafe [0x81, 0, 40, 0x02, 1, 3, 10, 20, 30, 40, 50] ↔
        BlockSound [0x81, 0, 40, 0x02, 1, 3, 10, 20, 30, 40, 50]) :=
  lacing_safe_iff _ _ (by decide)

/-- With a count of 255, of any lacing, and with a count of 0 and EBML lacing, something is written
behind the array of the sizes, or there are none.  Sizes of Xiph lacing are read behind the end. -/
theorem lacing_not_safe :
    ¬LacingSafe [0x04, 255] ∧ ¬LacingSafe [0x06, 0, 0x80] ∧ ¬LacingSafe [0x02, 1, 0xFF] ∧
      ¬BlockSafe [0x81, 0, 40, 0x06, 0, 0x80] := by
  refine ⟨fun h => ?_, fun h => h.1 rfl, fun h => h.1 rfl, fun h => h.1 rfl⟩
  exact absurd (h.2 0 [] [] 0 rfl).1 (by decide)

end MPlayer
