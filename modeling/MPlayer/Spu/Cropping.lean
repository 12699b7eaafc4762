import MPlayer.Spu.ImageSafety

/-!
# Cropping

A request for a rectangle of the subpicture should be answered with 1 exactly if the rectangle is
inside, and a cached answer should be the one that a new computation gives.  The height of the
rectangle is compared with the width of the subpicture, though, and a packet of
`spudec_set_paletted` changes the size that the answer depends on, but leaves the cache valid.
-/

namespace MPlayer.Spu

open Lib

namespace Picture

/-! ## The answer -/

/-- What `apply_palette_crop` returns. -/
def answer (s : Picture) (x y w h : Nat) : Bool := decide (¬s.Rejects x y w h)

variable {s : Picture} {x y w : Nat}

theorem applyPaletteCrop_answer {env : Env} {t : Picture} {h : Nat} {result : Bool}
    (ht : s.applyPaletteCrop env x y w h = .ok (t, result)) : result = s.answer x y w h := by
  unfold applyPaletteCrop at ht
  unfold answer
  split at ht
  · next hrejects =>
    cases ht
    exact (decide_eq_false (not_not.mpr hrejects)).symm
  · next hfits =>
    obtain ⟨pixels, -, ht⟩ := bind_ok_iff.mp ht
    obtain ⟨planes, -, ht⟩ := bind_ok_iff.mp ht
    cases ht
    exact (decide_eq_true hfits).symm

/-- The rectangle lies within the subpicture. -/
def Within (s : Picture) (x y w h : Nat) : Prop := x + w ≤ s.palWidth ∧ y + h ≤ s.palHeight

/-- The rectangle has a place in the image. -/
def HasPlace (s : Picture) (w h : Nat) : Prop :=
  cropStride w * h ≤ s.imageSize ∧ w ≤ 0x8000 ∧ h ≤ 0x8000

/-- A byte of `pal_image` is in the rectangle. -/
def InRectangle (s : Picture) (x y w h i : Nat) : Prop :=
  y ≤ i / s.palWidth ∧ i / s.palWidth < y + h ∧ x ≤ i % s.palWidth ∧ i % s.palWidth < x + w

/-- The pixels of a rectangle depend only on the bytes of `pal_image` in it.  Other bytes may not
even be there to be read. -/
def ReadsInside (env : Env) (s : Picture) (x y w h : Nat) : Prop :=
  ∀ read, (∀ i, s.InRectangle x y w h i → read i = s.readPal i) →
    s.cropPixels env read x y w h = s.cropPixels env s.readPal x y w h

/-- If a rectangle lies within the subpicture horizontally and begins within it vertically, its end
is on the same side of the width as of the height. -/
def SameSides (s : Picture) (x y w h : Nat) : Prop :=
  x + w ≤ s.palWidth → y ≤ s.palHeight →
    if y ≤ s.palWidth then (y + h ≤ s.palWidth ↔ y + h ≤ s.palHeight) else y + h ≤ s.palHeight

/-- The part of the check that doesn't look at the size of the image. -/
def Shaped (s : Picture) (x y w h : Nat) : Prop :=
  x + w ≤ s.palWidth ∧ y ≤ s.palHeight ∧ (y ≤ s.palWidth → y + h ≤ s.palWidth) ∧
    w ≤ 0x8000 ∧ h ≤ 0x8000

theorem not_rejects_iff {h : Nat} (hwidth : s.palWidth ≤ 4096) (hheight : s.palHeight ≤ 4096) :
    ¬s.Rejects x y w h ↔ s.Shaped x y w h ∧ cropStride w * h ≤ s.imageSize := by
  unfold Rejects Shaped toUnsigned
  generalize cropStride w * h = area
  constructor
  · intro hfits
    refine ⟨⟨?_, ?_, ?_, ?_, ?_⟩, ?_⟩
    all_goals omega
  · rintro ⟨⟨hx, hy, hh, hw, hle⟩, harea⟩ hrejects
    omega

theorem answer_iff {h : Nat} (hwidth : s.palWidth ≤ 4096) (hheight : s.palHeight ≤ 4096) :
    s.answer x y w h = true ↔ s.Shaped x y w h ∧ cropStride w * h ≤ s.imageSize := by
  rw [answer, decide_eq_true_iff]
  exact not_rejects_iff hwidth hheight

/-- The answer is right exactly if the end of the rectangle is on the same side of
width and height. -/
theorem answer_within_iff {h : Nat} (hwidth : s.palWidth ≤ 4096) (hheight : s.palHeight ≤ 4096)
    (hplace : s.HasPlace w h) :
    (s.answer x y w h = true ↔ s.Within x y w h) ↔ s.SameSides x y w h := by
  obtain ⟨harea, hw, hh⟩ := hplace
  rw [answer_iff hwidth hheight]
  unfold Shaped Within SameSides
  split
  · next hy =>
    constructor
    · intro hiff hx hy'
      constructor
      · exact fun hle => (hiff.mp ⟨⟨hx, hy', fun _ => hle, hw, hh⟩, harea⟩).2
      · exact fun hle => (hiff.mpr ⟨hx, hle⟩).1.2.2.1 hy
    · intro hsides
      constructor
      · rintro ⟨⟨hx, hy', hle, -, -⟩, -⟩
        exact ⟨hx, (hsides hx hy').mp (hle hy)⟩
      · rintro ⟨hx, hle⟩
        have hy' : y ≤ s.palHeight := Nat.le_trans (Nat.le_add_right y h) hle
        exact ⟨⟨hx, hy', fun _ => (hsides hx hy').mpr hle, hw, hh⟩, harea⟩
  · next hy =>
    constructor
    · intro hiff hx hy'
      exact (hiff.mp ⟨⟨hx, hy', fun hle => absurd hle hy, hw, hh⟩, harea⟩).2
    · intro hsides
      constructor
      · rintro ⟨⟨hx, hy', -⟩, -⟩
        exact ⟨hx, hsides hx hy'⟩
      · rintro ⟨hx, hle⟩
        exact ⟨⟨hx, Nat.le_trans (Nat.le_add_right y h) hle, fun hle => absurd hle hy, hw, hh⟩,
          harea⟩

theorem mapM_congr {α β : Type} {f g : α → Except Halt β} {l : List α} (h : ∀ a ∈ l, f a = g a) :
    l.mapM f = l.mapM g := by
  induction l with
  | nil => rfl
  | cons a l ih =>
    rw [List.mapM_cons, List.mapM_cons, h a List.mem_cons_self,
      ih fun b hb => h b (List.mem_cons_of_mem a hb)]

/-- A rectangle that isn't rejected is read only inside. -/
theorem reads_inside (env : Env) {h : Nat} (hx : x + w ≤ s.palWidth) :
    s.ReadsInside env x y w h := by
  intro read hread
  unfold cropPixels pal2grayAlpha
  rw [mapM_congr fun row hrow => ?_]
  unfold grayRow
  rw [mapM_congr fun col hcol => ?_]
  have hrow := List.mem_range.mp hrow
  have hcol := List.mem_range.mp hcol
  have hpos : 0 < s.palWidth := by omega
  have hindex : y * s.palWidth + x + row * s.palWidth + col =
      (x + col) + s.palWidth * (y + row) := by
    rw [Nat.mul_add, Nat.mul_comm s.palWidth y, Nat.mul_comm s.palWidth row]
    omega
  have hinside : s.InRectangle x y w h (y * s.palWidth + x + row * s.palWidth + col) := by
    unfold InRectangle
    rw [hindex, Nat.add_mul_div_left _ _ hpos, Nat.add_mul_mod_self_left,
      Nat.div_eq_of_lt (by omega), Nat.mod_eq_of_lt (by omega)]
    omega
  rw [hread _ hinside]

/-! ## Requests -/

end Picture

/-- The request whose answer is cached. -/
def CropCache.request (c : CropCache) : Picture.Request := ⟨c.palette, c.sx, c.sy, c.ex, c.ey⟩

namespace Picture

variable {s t : Picture} {size : Nat} {env : Env}

theorem cached_iff {r : Request} : s.Cached r ↔ s.cache.valid ∧ s.cache.request = r := by
  obtain ⟨palette, sx, sy, ex, ey⟩ := r
  unfold Cached CropCache.request
  constructor
  · rintro ⟨hvalid, rfl, rfl, rfl, rfl, rfl⟩
    exact ⟨hvalid, rfl⟩
  · rintro ⟨hvalid, heq⟩
    cases heq
    exact ⟨hvalid, rfl, rfl, rfl, rfl, rfl⟩

/-- What `apply_palette_crop` returns for the rectangle of a request. -/
def answerTo (s : Picture) (r : Request) : Bool := s.answer (s.cropX r) (s.cropY r) r.cropW r.cropH

/-- A cached answer is the one that a new computation gives.  Without a cached one, the answer says
if the rectangle lies within the subpicture, provided that it has a place in the image, and only
bytes inside of it are read. -/
def Exact (env : Env) (s : Picture) (r : Request) : Prop :=
  if s.Cached r then s.cache.result = s.answerTo r
  else (s.HasPlace r.cropW r.cropH →
      (s.answerTo r = true ↔ s.Within (s.cropX r) (s.cropY r) r.cropW r.cropH)) ∧
    (s.answerTo r = true → s.ReadsInside env (s.cropX r) (s.cropY r) r.cropW r.cropH)

/-- For a cached answer, the image of that time has room for the rectangle if and only if the image
has now. Else the rectangle is on the same side of the width and the height. -/
def Agrees (size : Nat) (s : Picture) (r : Request) : Prop :=
  if s.Cached r then s.Shaped (s.cropX r) (s.cropY r) r.cropW r.cropH →
    (cropStride r.cropW * r.cropH ≤ size ↔ cropStride r.cropW * r.cropH ≤ s.imageSize)
  else s.HasPlace r.cropW r.cropH → s.SameSides (s.cropX r) (s.cropY r) r.cropW r.cropH

/-- The subpicture has the size of one, and the cached answer was given when the image
had this size. -/
structure Remembers (size : Nat) (s : Picture) : Prop where
  width_le : s.palWidth ≤ 4096
  height_le : s.palHeight ≤ 4096
  cached : s.cache.valid → (s.cache.result = true ↔
    s.Shaped (s.cropX s.cache.request) (s.cropY s.cache.request)
      s.cache.request.cropW s.cache.request.cropH ∧
    cropStride s.cache.request.cropW * s.cache.request.cropH ≤ size)

theorem exact_iff {r : Request} (hs : s.Remembers size) : s.Exact env r ↔ s.Agrees size r := by
  unfold Exact Agrees
  split
  · next hcached =>
    obtain ⟨hvalid, rfl⟩ := cached_iff.mp hcached
    have hnow := answer_iff (x := s.cropX s.cache.request)
      (y := s.cropY s.cache.request) (w := s.cache.request.cropW)
      (h := s.cache.request.cropH) hs.width_le hs.height_le
    rw [Bool.eq_iff_iff, hs.cached hvalid, answerTo, hnow]
    constructor
    · intro hiff hshaped
      exact ⟨fun hle => (hiff.mp ⟨hshaped, hle⟩).2, fun hle => (hiff.mpr ⟨hshaped, hle⟩).2⟩
    · intro hsizes
      exact ⟨fun ⟨hshaped, hle⟩ => ⟨hshaped, (hsizes hshaped).mp hle⟩,
        fun ⟨hshaped, hle⟩ => ⟨hshaped, (hsizes hshaped).mpr hle⟩⟩
  · have hreads : s.answerTo r = true → s.ReadsInside env (s.cropX r) (s.cropY r) r.cropW r.cropH :=
      fun hanswer => reads_inside env ((answer_iff hs.width_le hs.height_le).mp hanswer).1.1
    constructor
    · rintro ⟨hexact, -⟩ hplace
      exact (answer_within_iff hs.width_le hs.height_le hplace).mp (hexact hplace)
    · intro hsides
      exact ⟨fun hplace => (answer_within_iff hs.width_le hs.height_le hplace).mpr (hsides hplace),
        hreads⟩

/-! ## What packets and requests change -/

/-- The subpicture and the cache are as they were. -/
structure SameCrop (s t : Picture) : Prop where
  palWidth : t.palWidth = s.palWidth
  palHeight : t.palHeight = s.palHeight
  palStartCol : t.palStartCol = s.palStartCol
  palStartRow : t.palStartRow = s.palStartRow
  cache : t.cache = s.cache

theorem Remembers.same (h : s.Remembers size) (hsame : SameCrop s t) : t.Remembers size := by
  refine ⟨hsame.palWidth ▸ h.width_le, hsame.palHeight ▸ h.height_le, ?_⟩
  unfold cropX cropY Shaped
  rw [hsame.cache, hsame.palWidth, hsame.palHeight, hsame.palStartCol, hsame.palStartRow]
  exact h.cached

/-- Behind `apply_palette_crop` nothing is cached, and the subpicture is as it was. -/
structure Cropped (s t : Picture) : Prop where
  palWidth : t.palWidth = s.palWidth
  palHeight : t.palHeight = s.palHeight
  palStartCol : t.palStartCol = s.palStartCol
  palStartRow : t.palStartRow = s.palStartRow
  invalid : t.cache.valid = false

theorem cutImage_sameCrop (env : Env) (s : Picture) : SameCrop s (s.cutImage env) := by
  unfold cutImage
  dsimp only
  split
  · exact ⟨rfl, rfl, rfl, rfl, rfl⟩
  · split
    · split
      · exact ⟨rfl, rfl, rfl, rfl, rfl⟩
      · exact ⟨rfl, rfl, rfl, rfl, rfl⟩
    · exact ⟨rfl, rfl, rfl, rfl, rfl⟩

theorem applyPaletteCrop_cropped {x y w h : Nat} {result : Bool}
    (ht : s.applyPaletteCrop env x y w h = .ok (t, result)) : Cropped s t := by
  unfold applyPaletteCrop at ht
  split at ht
  · cases ht
    exact ⟨rfl, rfl, rfl, rfl, rfl⟩
  · obtain ⟨pixels, -, ht⟩ := bind_ok_iff.mp ht
    obtain ⟨planes, -, ht⟩ := bind_ok_iff.mp ht
    cases ht
    have hcut := cutImage_sameCrop env { s with
      planes := planes
      width := w
      height := h
      stride := cropStride w
      startCol := (s.palStartCol + x) % 2 ^ 32
      startRow := (s.palStartRow + y) % 2 ^ 32 }
    exact ⟨hcut.palWidth, hcut.palHeight, hcut.palStartCol, hcut.palStartRow, rfl⟩

theorem Remembers.invalid (hwidth : s.palWidth ≤ 4096) (hheight : s.palHeight ≤ 4096)
    (hinvalid : s.cache.valid = false) : s.Remembers size :=
  ⟨hwidth, hheight, fun hvalid => by rw [hinvalid] at hvalid; cases hvalid⟩

theorem processData_remembers {packet : Packet} (hs : s.Remembers size) (hrle : packet.Rle)
    (hmalloc : (env.imageMalloc.get (2 * (packet.stride * packet.height))).isSome)
    (ht : s.processData env packet = .ok t) : t.Remembers size := by
  cases hplanes : (s.allocImage env packet.stride packet.height).planes with
  | none =>
    rw [processData_none hplanes] at ht
    cases ht
    by_cases hgrow : s.imageSize < packet.stride * packet.height
    · obtain ⟨memory, hmemory⟩ := Option.isSome_iff_exists.mp hmalloc
      obtain ⟨⟨planes, hsome, -⟩, -⟩ := allocImage_some hgrow hmemory
      rw [hplanes] at hsome
      cases hsome
    · rw [allocImage_keep env hgrow]
      exact hs.same ⟨rfl, rfl, rfl, rfl, rfl⟩
  | some planes =>
    unfold processData at ht
    dsimp only at ht
    rw [hplanes] at ht
    obtain ⟨d, -, ht⟩ := bind_ok_iff.mp ht
    obtain ⟨⟨u, result⟩, hu, ht⟩ := bind_ok_iff.mp ht
    cases ht
    have hcropped := applyPaletteCrop_cropped hu
    exact .invalid (hcropped.palWidth ▸ hrle.width_le) (hcropped.palHeight ▸ hrle.height_le)
      hcropped.invalid

theorem computePalette_sameCrop (s : Picture) (packet : Packet) :
    SameCrop s (s.computePalette packet) := by
  unfold computePalette
  dsimp only
  split
  · exact ⟨rfl, rfl, rfl, rfl, rfl⟩
  · exact ⟨rfl, rfl, rfl, rfl, rfl⟩

end Picture

/-- Memory for the image of a packet can be had. -/
def Shown.Allocates (q : Shown) : Prop :=
  (q.env.imageMalloc.get (2 * (q.packet.stride * q.packet.height))).isSome

namespace Picture

theorem present_remembers {size : Nat} {s t : Picture} {q : Shown} (hs : s.Remembers size)
    (hmalloc : q.Allocates) (ht : s.present q = .ok t) : t.Remembers size := by
  unfold present display at ht
  dsimp only at ht
  obtain hrle | hpaletted := q.valid
  · rw [hrle.notDecoded] at ht
    simp only [Bool.false_eq_true, if_false] at ht
    obtain ⟨u, hu, rfl⟩ := exists_map_iff.mp ⟨t, ht, rfl⟩
    have hstart : ({ s with
        nowPts := q.pts100
        startPts := q.packet.startPts
        endPts := q.packet.endPts } : Picture).Remembers size := hs.same ⟨rfl, rfl, rfl, rfl, rfl⟩
    refine Remembers.same (s := u) ?_ ⟨rfl, rfl, rfl, rfl, rfl⟩
    unfold showRle at hu
    dsimp only at hu
    split at hu
    · exact processData_remembers (hstart.same (computePalette_sameCrop _ q.packet)) hrle hmalloc hu
    · exact processData_remembers hstart hrle hmalloc hu
  · rw [hpaletted.isDecoded] at ht
    cases ht
    exact hs.same ⟨rfl, rfl, rfl, rfl, rfl⟩

theorem requestCrop_remembers {size : Nat} {env : Env} {s t : Picture} {r : Request} {result : Bool}
    (hs : s.Remembers size) (ht : s.requestCrop env r = .ok (t, result)) :
    t.Remembers (if s.Cached r then size else s.imageSize) := by
  unfold requestCrop at ht
  split at ht
  · next hcached =>
    cases ht
    rw [if_pos hcached]
    exact hs
  · next hcached =>
    rw [if_neg hcached]
    obtain ⟨⟨u, answer⟩, hu, ht⟩ := bind_ok_iff.mp ht
    cases ht
    have hcropped := applyPaletteCrop_cropped hu
    have hanswer := applyPaletteCrop_answer hu
    refine ⟨hcropped.palWidth ▸ hs.width_le, hcropped.palHeight ▸ hs.height_le, fun _ => ?_⟩
    change result = true ↔ _
    have hiff := answer_iff (x := s.cropX r) (y := s.cropY r) (w := r.cropW) (h := r.cropH)
      hs.width_le hs.height_le
    rw [hanswer]
    change s.answer (s.cropX r) (s.cropY r) r.cropW r.cropH = true ↔ _
    rw [hiff]
    unfold cropX cropY Shaped
    rw [hcropped.palWidth, hcropped.palHeight, hcropped.palStartCol, hcropped.palStartRow]
    rfl

end Picture

/-! ## Runs -/

/-- A packet is displayed, or a rectangle is requested. -/
inductive Event where
  | shown (q : Shown)
  | request (env : Env) (r : Picture.Request)

/-- Memory for the image of a packet can be had. -/
def Event.Allocates : Event → Prop
  | .shown q => q.Allocates
  | .request _ _ => True

namespace Picture

/-- The answers to all requests are exact. -/
def CropExact : List Event → Picture → Prop
  | [], _ => True
  | .shown q :: es, s => ∀ t, s.present q = .ok t → CropExact es t
  | .request env r :: es, s =>
    s.Exact env r ∧ ∀ t result, s.requestCrop env r = .ok (t, result) → CropExact es t

/-- At each request width and height, and the size of the image when the answer was cached
and now, agree. -/
def CropAgrees : List Event → Nat → Picture → Prop
  | [], _, _ => True
  | .shown q :: es, size, s => ∀ t, s.present q = .ok t → CropAgrees es size t
  | .request env r :: es, size, s =>
    s.Agrees size r ∧ ∀ t result, s.requestCrop env r = .ok (t, result) →
      CropAgrees es (if s.Cached r then size else s.imageSize) t

theorem cropExact_iff {es : List Event} {size : Nat} {s : Picture} (hs : s.Remembers size)
    (hmalloc : ∀ e ∈ es, e.Allocates) : CropExact es s ↔ CropAgrees es size s := by
  induction es generalizing size s with
  | nil => exact Iff.rfl
  | cons e es ih =>
    have hrest : ∀ e' ∈ es, e'.Allocates := fun e' he' => hmalloc e' (List.mem_cons_of_mem e he')
    cases e with
    | shown q =>
      have hq : q.Allocates := hmalloc (.shown q) List.mem_cons_self
      exact forall_congr' fun t => forall_congr' fun ht =>
        ih (present_remembers hs hq ht) hrest
    | request env r =>
      refine and_congr (exact_iff hs) ?_
      exact forall_congr' fun t => forall_congr' fun result => forall_congr' fun ht =>
        ih (requestCrop_remembers hs ht) hrest

/-- Answers are exact exactly if the sizes agree. -/
theorem crop_exact_iff (globalPalette : Fin 16 → UInt32) (custom : Bool) (cuspal : Fin 4 → UInt32)
    (autoPalette : Bool) (fontStartLevel : Int) (es : List Event)
    (hmalloc : ∀ e ∈ es, e.Allocates) :
    CropExact es (init globalPalette custom cuspal autoPalette fontStartLevel) ↔
      CropAgrees es 0 (init globalPalette custom cuspal autoPalette fontStartLevel) :=
  cropExact_iff (.invalid (Nat.zero_le _) (Nat.zero_le _) rfl) hmalloc

/-- An RLE packet of one column and two lines. -/
def tallPacket : Shown where
  pts100 := 0
  env := zeroEnv
  packet := ⟨false, [0x44, 0x44], 0, fun _ => 0, fun _ => 0, 2, ![0, 2], 0, 0, 0, 1, 2, 16, 0, 0⟩
  due := Nat.le.refl
  valid := .inl ⟨rfl, Nat.le_of_ble_eq_true rfl, Nat.le_of_ble_eq_true rfl, rfl,
    Nat.le_of_ble_eq_true rfl⟩

/-- The tall packet, and a request for the whole of it. -/
def tallEvents : List Event := [.shown tallPacket, .request zeroEnv ⟨0, 0, 0, 1, 2⟩]

theorem crop_exact_iff_tall : CropExact tallEvents (init (fun _ => 0) false (fun _ => 0) false 0) ↔
    CropAgrees tallEvents 0 (init (fun _ => 0) false (fun _ => 0) false 0) := by
  refine crop_exact_iff (fun _ => 0) false (fun _ => 0) false 0 tallEvents ?_
  intro e he
  simp only [tallEvents, List.mem_cons, List.not_mem_nil, or_false] at he
  obtain rfl | rfl := he
  · rfl
  · trivial

/-- The whole of a tall subpicture is rejected. -/
theorem crop_not_exact : ¬CropExact tallEvents blank := by
  have hpresent : (match blank.present tallPacket with
      | .ok t => decide (¬t.Cached ⟨0, 0, 0, 1, 2⟩ ∧ t.palWidth = 1 ∧ t.palHeight = 2 ∧
          t.palStartCol = 0 ∧ t.palStartRow = 0 ∧ t.imageSize = 32 ∧ ¬t.answerTo ⟨0, 0, 0, 1, 2⟩)
      | .error _ => false) = true := by decide
  intro hexact
  cases ht : blank.present tallPacket with
  | error e =>
    rw [ht] at hpresent
    cases hpresent
  | ok t =>
    rw [ht] at hpresent
    obtain ⟨hcached, hwidth, hheight, hcol, hrow, hsize, hanswer⟩ := of_decide_eq_true hpresent
    have hrequest := (hexact t ht).1
    unfold Exact at hrequest
    rw [if_neg hcached] at hrequest
    refine hanswer ((hrequest.1 ⟨?_, by decide, by decide⟩).mpr ?_)
    · rw [hsize]
      decide
    · unfold Within cropX cropY
      rw [hwidth, hheight, hcol, hrow]
      decide

end Picture

end MPlayer.Spu
