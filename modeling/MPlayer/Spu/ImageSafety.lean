import MPlayer.Lib.Copy
import MPlayer.Spu.Display
import MPlayer.Spu.Reassembly

/-!
# Images stay in their memory

The runs of a packet fill at most its width times its height, the memory of `pal_image` is as large
as the size that `spudec_alloc_image` looks at, and so is that of `image` and `aimage`, unless a
packet of `spudec_set_paletted` has changed the size but not `pal_image`.
-/

namespace MPlayer.Spu

open Lib

/-! ## Runs -/

namespace Decoding

variable {data : List UInt8} {controlStart : Nat}

/-- Only nibbles are read. -/
structure SameLine (d d' : Decoding) : Prop where
  x : d'.x = d.x
  y : d'.y = d.y
  dst : d'.dst = d.dst
  palImage : d'.palImage = d.palImage

theorem SameLine.refl (d : Decoding) : SameLine d d := ⟨rfl, rfl, rfl, rfl⟩

theorem SameLine.trans {d d' d'' : Decoding} (h : SameLine d d') (h' : SameLine d' d'') :
    SameLine d d'' :=
  ⟨h'.x.trans h.x, h'.y.trans h.y, h'.dst.trans h.dst, h'.palImage.trans h.palImage⟩

/-- Nothing behind `control_start` is read. -/
theorem getNibble_take (d : Decoding) :
    d.getNibble (data.take controlStart) controlStart = d.getNibble data controlStart := by
  unfold getNibble
  dsimp only
  split
  · rfl
  · next hlt =>
    have hfetch : fetch (data.take controlStart) (d.currentNibble d.oddness / 2 : Nat) =
        fetch data (d.currentNibble d.oddness / 2 : Nat) := by
      unfold fetch
      rw [Int.toNat_natCast, List.getElem?_take_of_lt (Nat.lt_of_not_le hlt)]
    rw [hfetch]

theorem shiftNibble_take (rle : Nat) (d : Decoding) :
    d.shiftNibble (data.take controlStart) controlStart rle =
      d.shiftNibble data controlStart rle := by
  unfold shiftNibble
  rw [getNibble_take]

theorem getRle_take (d : Decoding) :
    d.getRle (data.take controlStart) controlStart = d.getRle data controlStart := by
  unfold getRle
  simp only [getNibble_take, shiftNibble_take]

theorem turn_take (palWidth palHeight limit0 limit1 : Nat) :
    turn (data.take controlStart) controlStart palWidth palHeight limit0 limit1 =
      turn data controlStart palWidth palHeight limit0 limit1 := by
  funext d
  unfold turn
  rw [getRle_take]

variable (hdata : controlStart ≤ data.length)

include hdata

theorem getNibble_ok (d : Decoding) :
    ∃ nib d', d.getNibble data controlStart = .ok (nib, d') ∧ nib < 16 ∧ SameLine d d' := by
  unfold getNibble
  dsimp only
  split
  · exact ⟨0, d, rfl, by decide, .refl d⟩
  · next hlt =>
    rw [fetch_getD (Nat.lt_of_lt_of_le (Nat.lt_of_not_le hlt) hdata), ok_bind]
    refine ⟨_, _, rfl, ?_, rfl, rfl, rfl, rfl⟩
    have hbyte := (data.getD (d.currentNibble d.oddness / 2) 0).toNat_lt
    split
    · omega
    · omega

theorem shiftNibble_ok (rle : Nat) (d : Decoding) :
    ∃ rle' d', d.shiftNibble data controlStart rle = .ok (rle', d') ∧ rle' < rle * 16 + 16 ∧
      SameLine d d' := by
  obtain ⟨nib, d', hnib, hlt, hsame⟩ := getNibble_ok hdata d
  unfold shiftNibble
  rw [hnib]
  exact ⟨_, d', rfl, by omega, hsame⟩

/-- A run has at most four nibbles. -/
theorem getRle_ok (d : Decoding) :
    ∃ rle d', d.getRle data controlStart = .ok (rle, d') ∧ rle < 2 ^ 16 ∧ SameLine d d' := by
  obtain ⟨rle, d₁, h₁, hlt₁, hsame₁⟩ := getNibble_ok hdata d
  unfold getRle
  rw [h₁, ok_bind]
  dsimp only
  split
  · split
    · obtain ⟨rle₂, d₂, h₂, hlt₂, hsame₂⟩ := shiftNibble_ok hdata rle d₁
      rw [h₂, ok_bind]
      dsimp only
      split
      · obtain ⟨rle₃, d₃, h₃, hlt₃, hsame₃⟩ := shiftNibble_ok hdata rle₂ d₂
        obtain ⟨rle₄, d₄, h₄, hlt₄, hsame₄⟩ := shiftNibble_ok hdata rle₃ d₃
        rw [h₃, ok_bind]
        exact ⟨rle₄, d₄, h₄, by omega, ((hsame₁.trans hsame₂).trans hsame₃).trans hsame₄⟩
      · obtain ⟨rle₃, d₃, h₃, hlt₃, hsame₃⟩ := shiftNibble_ok hdata rle₂ d₂
        exact ⟨rle₃, d₃, h₃, by omega, (hsame₁.trans hsame₂).trans hsame₃⟩
    · obtain ⟨rle₂, d₂, h₂, hlt₂, hsame₂⟩ := shiftNibble_ok hdata rle d₁
      exact ⟨rle₂, d₂, h₂, by omega, hsame₁.trans hsame₂⟩
  · exact ⟨rle, d₁, rfl, by omega, hsame₁⟩

omit hdata

theorem fill_ok (color : UInt8) (len : Nat) (d : Decoding) (h : d.dst + len ≤ d.palImage.length) :
    ∃ d', d.fill color len = .ok d' ∧ d'.x = d.x ∧ d'.y = d.y ∧ d'.dst = d.dst + len ∧
      d'.palImage.length = d.palImage.length := by
  unfold fill
  split
  · next hlen =>
    rw [hlen]
    exact ⟨d, rfl, rfl, rfl, rfl, rfl⟩
  · refine ⟨_, rfl, rfl, rfl, rfl, ?_⟩
    simp only [List.length_append, List.length_take, List.length_replicate, List.length_drop]
    omega

/-- The runs have filled the lines so far. -/
structure Inside (palWidth palHeight n : Nat) (d : Decoding) : Prop where
  length : d.palImage.length = n
  line : d.y ≤ palHeight
  column : d.x = 0 ∨ d.x < palWidth
  dst : d.dst = d.y * palWidth + d.x

/-- What is left to do. -/
def left (palWidth palHeight : Nat) (d : Decoding) : Nat :=
  (palHeight - d.y) * (palWidth + 1) - d.x

theorem putRun_ok (rle : Nat) {palWidth palHeight n : Nat} {d : Decoding}
    (h : d.Inside palWidth palHeight n)
    (hn : palWidth * palHeight ≤ n) (hwidth : palWidth < 2 ^ 32) (hline : d.y < palHeight) :
    ∃ d', d.putRun palWidth rle = .ok d' ∧ d'.Inside palWidth palHeight n ∧
      d'.left palWidth palHeight < d.left palWidth palHeight := by
  have hcolumn := h.column
  have hlines : (d.y + 1) * palWidth ≤ n := by
    calc (d.y + 1) * palWidth ≤ palHeight * palWidth := Nat.mul_le_mul_right palWidth hline
      _ = palWidth * palHeight := Nat.mul_comm palHeight palWidth
      _ ≤ n := hn
  rw [Nat.succ_mul] at hlines
  have hleft : (palHeight - d.y) * (palWidth + 1) =
      (palHeight - (d.y + 1)) * (palWidth + 1) + (palWidth + 1) := by
    rw [← Nat.succ_mul]
    congr 1
    omega
  unfold putRun
  dsimp only
  split
  · next hend =>
    have hlen : (rle / 4 + palWidth + 2 ^ 32 - (d.x + rle / 4)) % 2 ^ 32 = palWidth - d.x := by
      omega
    rw [hlen]
    obtain ⟨d', hd', hx, hy, hdst, hlength⟩ :=
      fill_ok (UInt8.ofNat (3 - rle % 4)) (palWidth - d.x)
      { d.nextLine with x := 0, y := d.nextLine.y + 1 } (by
        change d.dst + (palWidth - d.x) ≤ d.palImage.length
        rw [h.dst, h.length]
        omega)
    refine ⟨d', hd', ⟨hlength.trans h.length, ?_, .inl hx, ?_⟩, ?_⟩
    · exact hy ▸ hline
    · rw [hdst, hx, hy]
      change d.dst + (palWidth - d.x) = (d.y + 1) * palWidth + 0
      rw [h.dst, Nat.succ_mul]
      omega
    · unfold left
      rw [hx, hy]
      change (palHeight - (d.y + 1)) * (palWidth + 1) - 0 < _
      omega
  · next hmore =>
    obtain ⟨d', hd', hx, hy, hdst, hlength⟩ := fill_ok (UInt8.ofNat (3 - rle % 4)) (rle / 4)
      { d with x := d.x + rle / 4 } (by
        change d.dst + rle / 4 ≤ d.palImage.length
        rw [h.dst, h.length]
        omega)
    refine ⟨d', hd', ⟨hlength.trans h.length, ?_, .inr ?_, ?_⟩, ?_⟩
    · exact hy ▸ h.line
    · rw [hx]
      exact Nat.lt_of_not_le fun hle => hmore (.inr hle)
    · rw [hdst, hx, hy]
      change d.dst + rle / 4 = d.y * palWidth + (d.x + rle / 4)
      rw [h.dst, Nat.add_assoc]
    · unfold left
      rw [hx, hy]
      change (palHeight - d.y) * (palWidth + 1) - (d.x + rle / 4) < _
      omega

end Decoding

namespace Picture

/-- The runs of a packet stay in a `pal_image` of this size, and their decoding ends. -/
theorem decodeRuns_ok (palImage : List UInt8) {packet : Packet}
    (hdata : packet.controlStart ≤ packet.packet.length)
    (hroom : packet.width * packet.height ≤ palImage.length) (hwidth : packet.width < 2 ^ 32) :
    ∃ d, decodeRuns packet palImage = .ok d ∧ d.palImage.length = palImage.length := by
  refine Gives.result (Gives.mono (P := Decoding.Inside packet.width packet.height palImage.length)
    (Gives.loop (I := Decoding.Inside packet.width packet.height palImage.length)
      (Decoding.left packet.width packet.height) ?_ ?_ ?_) fun d hd => hd.length)
  · intro d hd
    unfold Decoding.turn
    split
    · next hturn =>
      obtain ⟨rle, d₁, h₁, -, hsame⟩ := Decoding.getRle_ok hdata d
      have hd₁ : d₁.Inside packet.width packet.height palImage.length :=
        ⟨hsame.palImage ▸ hd.length, hsame.y ▸ hd.line, hsame.x ▸ hd.column, by
          rw [hsame.dst, hsame.y, hsame.x, hd.dst]⟩
      obtain ⟨d₂, h₂, hd₂, hless⟩ := Decoding.putRun_ok rle hd₁ hroom hwidth (hsame.y ▸ hturn.2.2)
      rw [h₁, ok_bind]
      dsimp only
      rw [h₂]
      refine ⟨hd₂, ?_⟩
      unfold Decoding.left at hless ⊢
      rwa [hsame.x, hsame.y] at hless
    · exact hd
  · exact ⟨rfl, Nat.zero_le _, .inl rfl, by simp only [Nat.zero_mul, Nat.add_zero]⟩
  · exact Nat.lt_succ_of_le (Nat.sub_le _ _)

/-! ## Palette conversion -/

theorem toUnsigned_ofNat {n : Nat} (h : n < 2 ^ 32) : toUnsigned (n : Int) = n := by
  unfold toUnsigned
  omega

/-- The rows of a rectangle, each as long as a line of the image. -/
theorem pal2grayAlpha_ok (pal : UInt8 → UInt16) (read : Nat → Except Halt UInt8)
    (src srcStride dstStride : Nat) {w h : Nat}
    (hread : ∀ y < h, ∀ x < w, ∃ b, read (src + y * srcStride + x) = .ok b) (hw : w ≤ dstStride) :
    ∃ pixels, pal2grayAlpha pal read src srcStride dstStride w h = .ok pixels ∧
      pixels.length = dstStride * h := by
  have hrow : ∀ y ∈ List.range h, ∃ row,
      grayRow pal read (src + y * srcStride) dstStride w = .ok row ∧ row.length = dstStride := by
    intro y hy
    obtain ⟨row, hrow, hmap⟩ := mapM_ok
      (f := fun x => do return pal (← read (src + y * srcStride + x))) (g := fun _ => ())
      (k := fun _ => ()) (l := List.range w)
      (by
        intro x hx
        obtain ⟨b, hb⟩ := hread y (List.mem_range.mp hy) x (List.mem_range.mp hx)
        rw [hb]
        exact ⟨_, rfl, rfl⟩)
    have hlen := congrArg List.length hmap
    rw [List.length_map, List.length_map, List.length_range] at hlen
    unfold grayRow
    rw [hrow]
    refine ⟨_, rfl, ?_⟩
    rw [List.length_append, List.length_replicate, hlen]
    omega
  obtain ⟨rows, hrows, hlens⟩ := mapM_ok (k := fun _ => dstStride) hrow
  unfold pal2grayAlpha
  rw [hrows]
  refine ⟨_, rfl, ?_⟩
  rw [List.length_flatten, hlens, List.map_const', List.sum_replicate_nat, List.length_range,
    Nat.mul_comm]

theorem paint_ok_iff {pixels : List UInt16} {planes : Planes} :
    (∃ t, paint pixels (some planes) = .ok t) ↔ pixels.length ≤ planes.image.length := by
  simp only [paint]
  split
  · next hfits => exact ⟨fun _ => hfits, fun _ => ⟨_, rfl⟩⟩
  · next hfits =>
    refine ⟨?_, fun h => absurd h hfits⟩
    rintro ⟨_, h⟩
    cases h

/-- What `apply_palette_crop` leaves as it is. -/
structure SameBuffers (s t : Picture) : Prop where
  imageSize : t.imageSize = s.imageSize
  palImage : t.palImage = s.palImage

theorem cutImage_same (env : Env) (s : Picture) : SameBuffers s (s.cutImage env) := by
  unfold cutImage
  dsimp only
  split
  · exact ⟨rfl, rfl⟩
  · split
    · split
      · exact ⟨rfl, rfl⟩
      · exact ⟨rfl, rfl⟩
    · exact ⟨rfl, rfl⟩

theorem applyPaletteCrop_same {env : Env} {s t : Picture} {x y w h : Nat} {result : Bool}
    (ht : s.applyPaletteCrop env x y w h = .ok (t, result)) : SameBuffers s t := by
  unfold applyPaletteCrop at ht
  split at ht
  · cases ht
    exact ⟨rfl, rfl⟩
  · obtain ⟨pixels, -, ht⟩ := bind_ok_iff.mp ht
    obtain ⟨planes, -, ht⟩ := bind_ok_iff.mp ht
    cases ht
    have hcut := cutImage_same env { s with
      planes := planes
      width := w
      height := h
      stride := cropStride w
      startCol := (s.palStartCol + x) % 2 ^ 32
      startRow := (s.palStartRow + y) % 2 ^ 32 }
    exact ⟨hcut.imageSize, hcut.palImage⟩

/-- The whole of a subpicture is rejected if it is higher than wide. -/
theorem rejects_whole {s : Picture} (hwidth : s.palWidth ≤ 0x8000) (hheight : s.palHeight ≤ 0x8000)
    (hsize : cropStride s.palWidth * s.palHeight ≤ s.imageSize) :
    s.Rejects 0 0 s.palWidth s.palHeight ↔ s.palWidth < s.palHeight := by
  have hunsigned : toUnsigned ((s.palWidth : Int) - (0 : Nat)) = s.palWidth := by
    rw [Int.natCast_zero, Int.sub_zero]
    exact toUnsigned_ofNat (by omega)
  unfold Rejects
  rw [hunsigned]
  omega

/-- The conversion of the whole subpicture stays in `image` and `aimage` exactly if they have
room for it. -/
theorem applyWhole_ok_iff (env : Env) {s : Picture} {planes : Planes}
    (hplanes : s.planes = some planes)
    (hwidth : s.palWidth ≤ 0x8000) (hheight : s.palHeight ≤ 0x8000)
    (hsize : cropStride s.palWidth * s.palHeight ≤ s.imageSize)
    (hpal : s.palWidth * s.palHeight ≤ s.palMemory.length) :
    (∃ t, s.applyPaletteCrop env 0 0 s.palWidth s.palHeight = .ok t) ↔
      (s.palHeight ≤ s.palWidth → cropStride s.palWidth * s.palHeight ≤ planes.image.length) := by
  unfold applyPaletteCrop
  split
  · next hrejects =>
    have htall := (rejects_whole hwidth hheight hsize).mp hrejects
    exact ⟨fun _ hflat => absurd htall (Nat.not_lt_of_le hflat), fun _ => ⟨_, rfl⟩⟩
  · next hfits =>
    have hflat : s.palHeight ≤ s.palWidth :=
      Nat.le_of_not_lt fun htall => hfits ((rejects_whole hwidth hheight hsize).mpr htall)
    obtain ⟨pixels, hpixels, hlen⟩ := pal2grayAlpha_ok (s.palAt env) s.readPal
      (0 * s.palWidth + 0) s.palWidth (cropStride s.palWidth) (w := s.palWidth) (h := s.palHeight)
      (by
        intro y hy x hx
        have hrow : (y + 1) * s.palWidth ≤ s.palWidth * s.palHeight :=
          (Nat.mul_le_mul_right s.palWidth hy).trans_eq (Nat.mul_comm _ _)
        rw [Nat.succ_mul] at hrow
        exact ⟨_, fetch_getD (by omega)⟩)
      (by
        unfold cropStride
        omega)
    unfold cropPixels
    rw [hpixels, ok_bind, hplanes, ← hlen]
    constructor
    · rintro ⟨t, ht⟩ -
      obtain ⟨u, hu, -⟩ := bind_ok_iff.mp ht
      exact paint_ok_iff.mp ⟨u, hu⟩
    · intro hroom
      obtain ⟨u, hu⟩ := paint_ok_iff.mpr (hroom hflat)
      rw [hu]
      exact ⟨_, rfl⟩

end Picture

/-! ## Packets -/

/-- What `spudec_process_control` says about an RLE packet. -/
structure Packet.Rle (packet : Packet) : Prop where
  notDecoded : packet.isDecoded = false
  width_le : packet.width ≤ 4096
  height_le : packet.height ≤ 4096
  stride_eq : packet.stride = (packet.width + 15) / 16 * 16
  control_le : packet.controlStart ≤ packet.packet.length

/-- What `spudec_set_paletted` says about a packet. -/
structure Packet.Paletted (packet : Packet) : Prop where
  isDecoded : packet.isDecoded = true
  dataLen_eq : packet.dataLen = 2 * (packet.stride * packet.height)
  length_eq : packet.packet.length = packet.dataLen

/-- The packet without what is at `control_start` or behind, if it is an RLE packet. -/
def Packet.visible (packet : Packet) : Packet :=
  if packet.isDecoded then packet
  else { packet with packet := packet.packet.take packet.controlStart }

namespace Picture

theorem processData_take (env : Env) (s : Picture) (packet : Packet) :
    s.processData env { packet with packet := packet.packet.take packet.controlStart } =
      s.processData env packet := by
  have hruns : ∀ palImage, decodeRuns
      { packet with packet := packet.packet.take packet.controlStart } palImage =
        decodeRuns packet palImage := by
    intro palImage
    unfold decodeRuns
    simp only [Decoding.turn_take]
    rfl
  unfold processData
  simp only [hruns]
  rfl

theorem showRle_take (env : Env) (s : Picture) (packet : Packet) :
    s.showRle env { packet with packet := packet.packet.take packet.controlStart } =
      s.showRle env packet := by
  unfold showRle
  rw [processData_take]
  rfl

theorem display_visible (env : Env) (s : Picture) (packet : Packet) :
    s.display env packet.visible = s.display env packet := by
  unfold Packet.visible
  split
  · rfl
  · next hnot =>
    unfold display
    dsimp only
    rw [if_neg hnot, if_neg hnot, showRle_take]

variable {env : Env} {s : Picture} {packet : Packet}

/-- There is room for a packet in the memory that there is.  If memory is allocated for it, that
succeeds for `pal_image` if for `image`. -/
def Room (env : Env) (s : Picture) (packet : Packet) : Prop :=
  if packet.isDecoded then packet.dataLen ≤ s.palMemory.length
  else if s.imageSize < packet.stride * packet.height then
    (env.imageMalloc.get (2 * (packet.stride * packet.height))).isSome →
      (env.palMalloc.get (packet.stride * packet.height)).isSome
  else packet.height ≤ packet.width → ∀ planes, s.planes = some planes →
    packet.stride * packet.height ≤ planes.image.length

/-- `spudec_alloc_image`, if there is memory. -/
theorem allocImage_keep (env : Env) {stride height : Nat} (h : ¬s.imageSize < stride * height) :
    s.allocImage env stride height =
      { s with width := min s.width stride, stride := stride, height := height } := by
  unfold allocImage
  dsimp only
  rw [if_neg h]

theorem allocImage_none {stride height : Nat} (h : s.imageSize < stride * height)
    (hnone : env.imageMalloc.get (2 * (stride * height)) = none)
    (hinv : s.imageSize ≤ s.palMemory.length) :
    (s.allocImage env stride height).planes = none ∧
      (s.allocImage env stride height).imageSize ≤
        (s.allocImage env stride height).palMemory.length := by
  unfold allocImage
  dsimp only
  rw [if_pos h]
  split
  · split
    · exact ⟨rfl, Nat.le_refl 0⟩
    · next hplanes => exact ⟨Option.not_isSome_iff_eq_none.mp hplanes, hinv⟩
  · next memory hmemory =>
    rw [hnone] at hmemory
    cases hmemory

theorem allocImage_some {stride height : Nat} {memory : List UInt8}
    (h : s.imageSize < stride * height)
    (hmemory : env.imageMalloc.get (2 * (stride * height)) = some memory) :
    (∃ planes, (s.allocImage env stride height).planes = some planes ∧
        planes.image.length = stride * height) ∧
      (s.allocImage env stride height).imageSize = stride * height ∧
      (s.allocImage env stride height).palImage = env.palMalloc.get (stride * height) := by
  unfold allocImage
  dsimp only
  rw [if_pos h]
  split
  · next hnone =>
    rw [hnone] at hmemory
    cases hmemory
  · next memory' hmemory' =>
    refine ⟨⟨_, rfl, ?_⟩, rfl, rfl⟩
    have hlen := env.imageMalloc.length_eq hmemory'
    rw [List.length_take]
    omega

theorem Packet.Rle.cropStride_eq (h : packet.Rle) : cropStride packet.width = packet.stride := by
  have hwidth := h.width_le
  rw [h.stride_eq]
  unfold cropStride
  omega

theorem Packet.Rle.area_le (h : packet.Rle) :
    packet.width * packet.height ≤ packet.stride * packet.height := by
  refine Nat.mul_le_mul_right packet.height ?_
  rw [h.stride_eq]
  omega

/-- What `spudec_process_data` does behind the allocation, in an image that is large enough. -/
theorem processData_some (planes : Planes) (hrle : packet.Rle)
    (hplanes : (s.allocImage env packet.stride packet.height).planes = some planes)
    (hsize : packet.stride * packet.height ≤
      (s.allocImage env packet.stride packet.height).imageSize)
    (hinv : (s.allocImage env packet.stride packet.height).imageSize ≤
      (s.allocImage env packet.stride packet.height).palMemory.length) :
    (∃ t, s.processData env packet = .ok t ∧ t.imageSize ≤ t.palMemory.length) ↔
      (packet.height ≤ packet.width → packet.stride * packet.height ≤ planes.image.length) := by
  unfold processData
  dsimp only
  generalize s.allocImage env packet.stride packet.height = a at hplanes hsize hinv ⊢
  have harea := Packet.Rle.area_le hrle
  have hwidth := hrle.width_le
  have hheight := hrle.height_le
  obtain ⟨d, hd, hlen⟩ := decodeRuns_ok a.palMemory hrle.control_le
    (Nat.le_trans harea (Nat.le_trans hsize hinv)) (by omega)
  have hpal : (a.palImage.map fun _ => d.palImage).getD [] = d.palImage := by
    cases hnone : a.palImage with
    | some _ => rfl
    | none =>
      rw [palMemory, hnone] at hlen
      exact (List.eq_nil_of_length_eq_zero hlen).symm
  rw [hplanes]
  simp only [Option.isNone_some, Bool.false_eq_true, if_false]
  change (∃ t, (decodeRuns packet a.palMemory >>= _) = _ ∧ _) ↔ _
  rw [hd, ok_bind]
  generalize hb : ({ a.setPacket packet with
    palImage := (a.setPacket packet).palImage.map fun _ => d.palImage } : Picture) = b
  have hbpal : b.palMemory = d.palImage := by
    rw [← hb]
    exact hpal
  have hbwidth : b.palWidth = packet.width := by
    rw [← hb]
    rfl
  have hbheight : b.palHeight = packet.height := by
    rw [← hb]
    rfl
  have hbsize : b.imageSize = a.imageSize := by
    rw [← hb]
    rfl
  have hbplanes : b.planes = some planes := by
    rw [← hb]
    exact hplanes
  have hiff := applyWhole_ok_iff env hbplanes (by omega) (by omega)
    (by
      rw [hbwidth, hbheight, hbsize, Packet.Rle.cropStride_eq hrle]
      exact hsize)
    (by
      rw [hbwidth, hbheight, hbpal, hlen]
      exact Nat.le_trans harea (Nat.le_trans hsize hinv))
  rw [hbwidth, hbheight, Packet.Rle.cropStride_eq hrle] at hiff
  rw [← hiff]
  constructor
  · rintro ⟨t, ht, -⟩
    obtain ⟨u, hu, -⟩ := bind_ok_iff.mp ht
    exact ⟨u, hu⟩
  · rintro ⟨⟨t, result⟩, ht⟩
    have hsame := applyPaletteCrop_same ht
    change ∃ t, (b.applyPaletteCrop env 0 0 packet.width packet.height >>= _) = _ ∧ _
    rw [ht]
    refine ⟨t, rfl, ?_⟩
    rw [palMemory, hsame.imageSize, hsame.palImage, hbsize]
    change a.imageSize ≤ b.palMemory.length
    rw [hbpal, hlen]
    exact hinv

theorem computePalette_same (s : Picture) (packet : Packet) :
    (s.computePalette packet).planes = s.planes ∧
    (s.computePalette packet).imageSize = s.imageSize ∧
    (s.computePalette packet).palImage = s.palImage := by
  unfold computePalette
  dsimp only
  split
  · exact ⟨rfl, rfl, rfl⟩
  · exact ⟨rfl, rfl, rfl⟩

theorem processData_none (h : (s.allocImage env packet.stride packet.height).planes = none) :
    s.processData env packet = .ok (s.allocImage env packet.stride packet.height) := by
  unfold processData
  dsimp only
  rw [h]
  rfl

theorem processData_noPal {t : Picture} {planes : Planes}
    (hplanes : (s.allocImage env packet.stride packet.height).planes = some planes)
    (hpal : (s.allocImage env packet.stride packet.height).palImage = none)
    (ht : s.processData env packet = .ok t) :
    t.imageSize = (s.allocImage env packet.stride packet.height).imageSize ∧ t.palImage = none := by
  unfold processData at ht
  dsimp only at ht
  rw [hplanes] at ht
  obtain ⟨d, -, ht⟩ := bind_ok_iff.mp ht
  obtain ⟨⟨u, result⟩, hu, ht⟩ := bind_ok_iff.mp ht
  have hsame := applyPaletteCrop_same hu
  cases ht
  refine ⟨hsame.imageSize, hsame.palImage.trans ?_⟩
  exact congrArg (Option.map fun _ => d.palImage) hpal

/-- An RLE packet stays in the memory exactly if there is room for it. -/
theorem processData_room_iff (env : Env) (hrle : packet.Rle)
    (hinv : s.imageSize ≤ s.palMemory.length) :
    (∃ t, s.processData env packet = .ok t ∧ t.imageSize ≤ t.palMemory.length) ↔
      s.Room env packet := by
  unfold Room
  rw [hrle.notDecoded]
  simp only [Bool.false_eq_true, if_false]
  split
  · next hgrow =>
    cases hmemory : env.imageMalloc.get (2 * (packet.stride * packet.height)) with
    | none =>
      obtain ⟨hplanes, hsize⟩ := allocImage_none hgrow hmemory hinv
      exact ⟨fun _ => nofun, fun _ => ⟨_, processData_none hplanes, hsize⟩⟩
    | some memory =>
      obtain ⟨⟨planes, hplanes, hlen⟩, hsize, hpal⟩ := allocImage_some hgrow hmemory
      cases hpalMemory : env.palMalloc.get (packet.stride * packet.height) with
      | some palMemory =>
        have hroom : (s.allocImage env packet.stride packet.height).palMemory.length =
            packet.stride * packet.height := by
          rw [Picture.palMemory, hpal, hpalMemory]
          exact env.palMalloc.length_eq hpalMemory
        rw [processData_some _ hrle hplanes (Nat.le_of_eq hsize.symm) (by omega), hlen]
        exact ⟨fun _ _ => rfl, fun _ _ => Nat.le_refl _⟩
      | none =>
        rw [hpalMemory] at hpal
        refine ⟨?_, fun hroom => absurd (hroom rfl) (by decide)⟩
        rintro ⟨t, ht, hle⟩
        obtain ⟨htsize, htpal⟩ := processData_noPal hplanes hpal ht
        rw [palMemory, htpal, htsize, hsize] at hle
        exact absurd (Nat.lt_of_lt_of_le hgrow hle) (Nat.not_lt_zero _)
  · next hkeep =>
    have halloc := allocImage_keep env hkeep
    cases hplanes : s.planes with
    | none =>
      have hnone : (s.allocImage env packet.stride packet.height).planes = none := by
        rw [halloc]
        exact hplanes
      refine ⟨fun _ _ planes => nofun, fun _ => ⟨_, processData_none hnone, ?_⟩⟩
      rw [halloc]
      exact hinv
    | some planes =>
      rw [processData_some planes hrle (by rw [halloc]; exact hplanes)
        (by rw [halloc]; exact Nat.le_of_not_lt hkeep) (by rw [halloc]; exact hinv)]
      constructor
      · rintro hroom hflat _ ⟨⟩
        exact hroom hflat
      · exact fun hroom hflat => hroom hflat planes rfl

theorem exists_map_iff {α β : Type} {x : Except Halt α} {f : α → β} {P : β → Prop} :
    (∃ b, x.map f = .ok b ∧ P b) ↔ ∃ a, x = .ok a ∧ P (f a) := by
  cases x with
  | error e =>
    constructor
    · rintro ⟨_, h, _⟩
      cases h
    · rintro ⟨_, h, _⟩
      cases h
  | ok a =>
    constructor
    · rintro ⟨_, ⟨⟩, hP⟩
      exact ⟨a, rfl, hP⟩
    · rintro ⟨_, ⟨⟩, hP⟩
      exact ⟨f a, rfl, hP⟩

/-- The room that a packet needs depends only on the buffers. -/
theorem showRle_room_iff (hrle : packet.Rle) (hinv : s.imageSize ≤ s.palMemory.length) :
    (∃ t, s.showRle env packet = .ok t ∧ t.imageSize ≤ t.palMemory.length) ↔ s.Room env packet := by
  unfold showRle
  dsimp only
  split
  · obtain ⟨hplanes, hsize, hpal⟩ := computePalette_same s packet
    have hiff := processData_room_iff env (s := s.computePalette packet) hrle
      (by rw [palMemory, hsize, hpal]; exact hinv)
    unfold Room palMemory at hiff ⊢
    rwa [hplanes, hsize, hpal] at hiff
  · exact processData_room_iff env hrle hinv

/-- A packet that is displayed stays in the memory, and leaves enough for the next one, exactly if
there is room for it. -/
theorem display_room_iff (env : Env) (s : Picture) (hvalid : packet.Rle ∨ packet.Paletted)
    (hinv : s.imageSize ≤ s.palMemory.length) :
    (∃ t, s.display env packet = .ok t ∧ t.imageSize ≤ t.palMemory.length) ↔ s.Room env packet := by
  unfold display
  dsimp only
  rw [exists_map_iff]
  obtain hrle | hpaletted := hvalid
  · rw [hrle.notDecoded]
    exact showRle_room_iff (s := { s with startPts := packet.startPts, endPts := packet.endPts })
      hrle hinv
  · unfold Room
    rw [hpaletted.isDecoded]
    constructor
    · rintro ⟨_, ⟨⟩, hle⟩
      exact hle
    · intro hle
      exact ⟨_, rfl, hle⟩

end Picture

/-! ## Heartbeats -/

/-- A packet that a heartbeat displays, with the heartbeat's time, and what is outside of
the program then. -/
structure Shown where
  pts100 : Nat
  env : Env
  packet : Packet
  due : packet.startPts ≤ pts100
  valid : packet.Rle ∨ packet.Paletted

namespace Picture

/-- A packet is displayed in its heartbeat. -/
def present (s : Picture) (q : Shown) : Except Halt Picture :=
  { s with nowPts := q.pts100 }.display q.env q.packet

/-- Packets displayed one after the other stay in the memory, also if nothing at `control_start` or
behind can be read, and `pal_image` always has the size that `spudec_alloc_image` looks at. -/
def ImageSafe : List Shown → Picture → Prop
  | [], s => s.imageSize ≤ s.palMemory.length
  | q :: qs, s =>
    s.imageSize ≤ s.palMemory.length ∧
      ∃ t, s.present q = .ok t ∧
        { s with nowPts := q.pts100 }.display q.env q.packet.visible = .ok t ∧ ImageSafe qs t

/-- There is room for each of the packets when it is displayed. -/
def HaveRoom : List Shown → Picture → Prop
  | [], _ => True
  | q :: qs, s => s.Room q.env q.packet ∧ ∀ t, s.present q = .ok t → HaveRoom qs t

theorem imageSafe_iff {qs : List Shown} {s : Picture} (hinv : s.imageSize ≤ s.palMemory.length) :
    ImageSafe qs s ↔ HaveRoom qs s := by
  induction qs generalizing s with
  | nil => exact ⟨fun _ => trivial, fun _ => hinv⟩
  | cons q qs ih =>
    have hroom : (∃ t, s.present q = .ok t ∧ t.imageSize ≤ t.palMemory.length) ↔
        s.Room q.env q.packet :=
      display_room_iff q.env { s with nowPts := q.pts100 } q.valid hinv
    unfold ImageSafe HaveRoom
    rw [display_visible]
    constructor
    · rintro ⟨-, t, ht, -, hsafe⟩
      have hle : t.imageSize ≤ t.palMemory.length := by
        cases qs with
        | nil => exact hsafe
        | cons _ _ => exact hsafe.1
      refine ⟨hroom.mp ⟨t, ht, hle⟩, fun u hu => ?_⟩
      cases ht.symm.trans hu
      exact (ih hle).mp hsafe
    · rintro ⟨hfits, hrest⟩
      obtain ⟨t, ht, hle⟩ := hroom.mpr hfits
      exact ⟨hinv, t, ht, ht, (ih hle).mpr (hrest t ht)⟩

/-- The display of a new handle. -/
def init (globalPalette : Fin 16 → UInt32) (custom : Bool) (cuspal : Fin 4 → UInt32)
    (autoPalette : Bool) (fontStartLevel : Int) : Picture where
  globalPalette := globalPalette
  palette := fun _ => 0
  alpha := fun _ => 0
  cuspal := cuspal
  custom := custom
  nowPts := 0
  startPts := 0
  endPts := 0
  startCol := 0
  startRow := 0
  width := 0
  height := 0
  stride := 0
  imageSize := 0
  planes := none
  palStartCol := 0
  palStartRow := 0
  palWidth := 0
  palHeight := 0
  palImage := none
  scaledFrameWidth := 0
  scaledFrameHeight := 0
  autoPalette := autoPalette
  fontStartLevel := fontStartLevel
  spuChanged := false
  cache := ⟨false, 0, 0, 0, 0, 0, false⟩

/-- The packets that heartbeats display stay in the memory exactly if there is room for
each of them. -/
theorem image_safe_iff (globalPalette : Fin 16 → UInt32) (custom : Bool) (cuspal : Fin 4 → UInt32)
    (autoPalette : Bool) (fontStartLevel : Int) (qs : List Shown) :
    ImageSafe qs (init globalPalette custom cuspal autoPalette fontStartLevel) ↔
      HaveRoom qs (init globalPalette custom cuspal autoPalette fontStartLevel) :=
  imageSafe_iff (Nat.le_refl 0)

/-! ## A packet of each kind -/

/-- Memory filled with zeros, and zeros behind everything. -/
def zeroEnv : Env := ⟨Assembler.zeroMalloc, Assembler.zeroMalloc, fun _ => 0, fun _ => 0⟩

/-- The display of a new handle without colours. -/
def blank : Picture := init (fun _ => 0) false (fun _ => 0) false 0

/-- A packet of one pixel from `spudec_set_paletted`. -/
def palettedPixel : Shown where
  pts100 := 0
  env := zeroEnv
  packet :=
    ⟨true, List.replicate 32 0, 32, fun _ => 0, fun _ => 0, 0, fun _ => 0, 0, 0, 0, 1, 1, 16, 0, 0⟩
  due := Nat.le_refl 0
  valid := .inr ⟨rfl, rfl, rfl⟩

/-- An RLE packet with a run of one pixel. -/
def rlePixel : Shown where
  pts100 := 0
  env := zeroEnv
  packet := ⟨false, [0x44, 0x44], 0, fun _ => 0, fun _ => 0, 2, ![0, 2], 0, 0, 0, 1, 1, 16, 0, 0⟩
  due := Nat.le_refl 0
  valid := .inl ⟨rfl, by decide, by decide, rfl, by decide⟩

/-- The RLE packet is decoded into a `pal_image` that nothing has allocated. -/
theorem image_not_safe : ¬ImageSafe [palettedPixel, rlePixel] blank ∧
    ∃ t e, blank.present palettedPixel = .ok t ∧ t.present rlePixel = .error e := by
  have hpresent : (match blank.present palettedPixel with
      | .ok t => (t.present rlePixel).toOption.isNone
      | .error _ => false) = true := by decide
  cases ht : blank.present palettedPixel with
  | error e =>
    rw [ht] at hpresent
    cases hpresent
  | ok t =>
    rw [ht] at hpresent
    dsimp only at hpresent
    cases he : t.present rlePixel with
    | ok u =>
      rw [he] at hpresent
      cases hpresent
    | error e =>
      refine ⟨?_, t, e, rfl, he⟩
      rintro ⟨-, u, hu, -, -, v, hv, -⟩
      cases ht.symm.trans hu
      rw [he] at hv
      cases hv

end Picture

end MPlayer.Spu
