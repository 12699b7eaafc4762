import MPlayer.Spu.Control

/-!
# Displaying subpictures

`spudec_heartbeat` takes the packets whose time has come from the queue.  The image of an RLE packet
is decoded into `pal_image`, four colours in two bits, and `apply_palette_crop` converts a rectangle
of it to grey and alpha values.  A packet of `spudec_set_paletted` brings these itself.

`image` and `aimage` are the halves of one allocation.  A write outside of a half, and an access
outside of `pal_image`, is stopped as `bounds`.
-/

namespace MPlayer.Spu

open Lib

/-! ## State -/

/-- The memory of `image` and `aimage`. -/
structure Planes where
  image : List UInt8
  aimage : List UInt8
  length_eq : image.length = aimage.length

/-- `memmove` to the begin of both halves. -/
def Planes.shift (planes : Planes) (off n : Nat) : Planes where
  image := (planes.image.drop off).take n ++ planes.image.drop n
  aimage := (planes.aimage.drop off).take n ++ planes.aimage.drop n
  length_eq := by
    simp only [List.length_append, List.length_take, List.length_drop, planes.length_eq]

/-- `struct palette_crop_cache`. -/
structure CropCache where
  valid : Bool
  palette : Nat
  sx : Int
  sy : Int
  ex : Int
  ey : Int
  result : Bool

/-- The fields of `spudec_handle_t` that belong to the display.  `image` and
`aimage` are `planes`. -/
structure Picture where
  globalPalette : Fin 16 → UInt32
  palette : Fin 4 → Fin 16
  alpha : Fin 4 → Fin 16
  cuspal : Fin 4 → UInt32
  custom : Bool
  nowPts : Nat
  startPts : Nat
  endPts : Nat
  startCol : Nat
  startRow : Nat
  width : Nat
  height : Nat
  stride : Nat
  imageSize : Nat
  planes : Option Planes
  palStartCol : Nat
  palStartRow : Nat
  palWidth : Nat
  palHeight : Nat
  palImage : Option (List UInt8)
  scaledFrameWidth : Nat
  scaledFrameHeight : Nat
  autoPalette : Bool
  fontStartLevel : Int
  spuChanged : Bool
  cache : CropCache

/-- What lies outside of the program while a packet is displayed: the allocations of `image` and
`pal_image`, the bytes behind `aimage`, and the values behind a palette of four. -/
structure Env where
  imageMalloc : Malloc
  palMalloc : Malloc
  behind : Nat → UInt8
  beyond : UInt8 → UInt16

namespace Picture

/-- The bytes of `pal_image`. -/
def palMemory (s : Picture) : List UInt8 := s.palImage.getD []

/-! ## Images -/

/-- `spudec_alloc_image`. -/
def allocImage (env : Env) (s : Picture) (stride height : Nat) : Picture :=
  let s := { s with width := min s.width stride, stride := stride, height := height }
  if s.imageSize < stride * height then
    let s := if s.planes.isSome then
        { s with planes := none, palImage := none, imageSize := 0, palWidth := 0, palHeight := 0 }
      else s
    match h : env.imageMalloc.get (2 * (stride * height)) with
    | none => s
    | some memory =>
      { s with
        planes := some ⟨memory.take (stride * height), memory.drop (stride * height), by
          rw [List.length_take, List.length_drop, env.imageMalloc.length_eq h]
          omega⟩
        imageSize := stride * height
        palImage := env.palMalloc.get (stride * height) }
  else s

/-- The byte of `aimage` at an index, or what is behind it. -/
def alphaAt (env : Env) (s : Picture) (i : Nat) : UInt8 :=
  match s.planes with
  | some planes => planes.aimage.getD i (env.behind i)
  | none => env.behind i

/-- `spudec_cut_image`. -/
def cutImage (env : Env) (s : Picture) : Picture :=
  if s.stride = 0 ∨ s.height = 0 then s
  else
    let fy := ((List.range s.imageSize).find? fun i => s.alphaAt env i ≠ 0).getD s.imageSize
    let ly := ((List.range (s.stride * s.height)).reverse.find? fun i => s.alphaAt env i ≠ 0).getD 0
    let firstY := fy / s.stride
    let lastY := ly / s.stride
    let s := { s with startRow := (s.startRow + firstY) % 2 ^ 32 }
    if firstY < lastY + 1 then
      let s := { s with height := lastY + 1 - firstY }
      if 0 < firstY then
        { s with planes := s.planes.map (·.shift (s.stride * firstY) (s.stride * s.height)) }
      else s
    else { s with height := 0 }

/-! ## Cropping -/

/-- `(crop_w + 15) & ~15`. -/
def cropStride (cropW : Nat) : Nat := (cropW + 15) % 2 ^ 32 / 16 * 16

/-- The check in `apply_palette_crop`. -/
def Rejects (s : Picture) (cropX cropY cropW cropH : Nat) : Prop :=
  s.palWidth < cropX ∨ s.palHeight < cropY ∨
    toUnsigned (s.palWidth - cropX) < cropW ∨ toUnsigned (s.palWidth - cropY) < cropH ∨
    0x8000 < cropW ∨ 0x8000 < cropH ∨
    s.imageSize < cropStride cropW * cropH

instance (s : Picture) (cropX cropY cropW cropH : Nat) :
    Decidable (s.Rejects cropX cropY cropW cropH) := by
  unfold Rejects
  infer_instance

/-- An entry of `pal`, with the alpha value in the high byte. -/
def palEntry (s : Picture) (i : Fin 4) : UInt16 :=
  let alpha := if s.custom ∧ s.cuspal i >>> 31 ≠ 0 then 0 else (s.alpha i).val * 17
  let color := if s.custom then s.cuspal i else s.globalPalette (s.palette i)
  let color := min (color.toNat / 2 ^ 16 % 2 ^ 8) alpha
  UInt16.ofNat ((2 ^ 8 - alpha) % 2 ^ 8 * 2 ^ 8 + color)

/-- `pal[c]`. -/
def palAt (env : Env) (s : Picture) (c : UInt8) : UInt16 :=
  if h : c.toNat < 4 then s.palEntry ⟨c.toNat, h⟩ else env.beyond c

/-- A row of `pal2gray_alpha`, filled up with zeros. -/
def grayRow (pal : UInt8 → UInt16) (read : Nat → Except Halt UInt8) (src dstStride w : Nat) :
    Except Halt (List UInt16) := do
  let pixels ← (List.range w).mapM fun x => do return pal (← read (src + x))
  return pixels ++ List.replicate (dstStride - w) 0

/-- `pal2gray_alpha`, without `skip_stride`, of the bytes that `read` gives. -/
def pal2grayAlpha (pal : UInt8 → UInt16) (read : Nat → Except Halt UInt8)
    (src srcStride dstStride w h : Nat) : Except Halt (List UInt16) := do
  let rows ← (List.range h).mapM fun y => grayRow pal read (src + y * srcStride) dstStride w
  return rows.flatten

/-- A byte of `pal_image`. -/
def readPal (s : Picture) (i : Nat) : Except Halt UInt8 := fetch s.palMemory (i : Nat)

/-- The pixels of a rectangle. -/
def cropPixels (env : Env) (s : Picture) (read : Nat → Except Halt UInt8)
    (cropX cropY cropW cropH : Nat) : Except Halt (List UInt16) :=
  pal2grayAlpha (s.palAt env) read (cropY * s.palWidth + cropX) s.palWidth (cropStride cropW) cropW
    cropH

/-- Pixels are written to both halves. -/
def paint (pixels : List UInt16) : Option Planes → Except Halt (Option Planes)
  | none => if pixels = [] then .ok none else .error .bounds
  | some planes =>
    if pixels.length ≤ planes.image.length then
      .ok (some {
        image := pixels.map (·.toUInt8) ++ planes.image.drop pixels.length
        aimage :=
          pixels.map (fun pixel : UInt16 => (pixel >>> 8).toUInt8) ++
          planes.aimage.drop pixels.length
        length_eq := by
          simp only [List.length_append, List.length_map, List.length_drop, planes.length_eq] })
    else .error .bounds

/-- The end of `apply_palette_crop`. -/
def cropDone (s : Picture) : Picture :=
  { s with scaledFrameWidth := 0, scaledFrameHeight := 0, cache := { s.cache with valid := false } }

/-- `apply_palette_crop`, with the value it returns. -/
def applyPaletteCrop (env : Env) (s : Picture) (cropX cropY cropW cropH : Nat) :
    Except Halt (Picture × Bool) :=
  if s.Rejects cropX cropY cropW cropH then
    return ({ s with width := 0, height := 0 }.cropDone, false)
  else do
    let pixels ← s.cropPixels env s.readPal cropX cropY cropW cropH
    let planes ← paint pixels s.planes
    let s := { s with
      planes := planes
      width := cropW
      height := cropH
      stride := cropStride cropW
      startCol := (s.palStartCol + cropX) % 2 ^ 32
      startRow := (s.palStartRow + cropY) % 2 ^ 32 }
    return ((s.cutImage env).cropDone, true)

/-- Four bits of a palette argument. -/
def paletteNibble (palette i : Nat) : Fin 16 := ⟨palette / 16 ^ i % 16, Nat.mod_lt _ (by decide)⟩

/-- The colours of a palette argument. -/
def setPalette (s : Picture) (palette : Nat) : Picture :=
  { s with
    palette := fun i => paletteNibble palette (7 - i.val)
    alpha := fun i => paletteNibble palette (3 - i.val)
    spuChanged := true }

/-- A request to `spudec_apply_palette_crop`. -/
structure Request where
  palette : Nat
  sx : Int
  sy : Int
  ex : Int
  ey : Int
deriving DecidableEq

/-- The answer to this request is cached. -/
def Cached (s : Picture) (r : Request) : Prop :=
  s.cache.valid ∧ s.cache.palette = r.palette ∧
    s.cache.sx = r.sx ∧ s.cache.sy = r.sy ∧ s.cache.ex = r.ex ∧ s.cache.ey = r.ey

instance (s : Picture) (r : Request) : Decidable (s.Cached r) := by
  unfold Cached
  infer_instance

/-- The arguments of `apply_palette_crop` for a request. -/
def cropX (s : Picture) (r : Request) : Nat := toUnsigned (r.sx - s.palStartCol)
def cropY (s : Picture) (r : Request) : Nat := toUnsigned (r.sy - s.palStartRow)
def Request.cropW (r : Request) : Nat := toUnsigned (r.ex - r.sx)
def Request.cropH (r : Request) : Nat := toUnsigned (r.ey - r.sy)

/-- `spudec_apply_palette_crop`. -/
def requestCrop (env : Env) (s : Picture) (r : Request) : Except Halt (Picture × Bool) :=
  if s.Cached r then return (s, s.cache.result)
  else do
    let (s, result) ← (s.setPalette r.palette).applyPaletteCrop env (s.cropX r) (s.cropY r) r.cropW
      r.cropH
    let cache : CropCache := ⟨true, r.palette, r.sx, r.sy, r.ex, r.ey, result⟩
    return ({ s with cache := cache }, result)

end Picture

end MPlayer.Spu
