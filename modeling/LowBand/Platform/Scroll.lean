import LowBand.Platform.Damage
import LowBand.Platform.PhaseCorrelation

/-!
# Scroll detection

`ScrollDetector` of `screen_encoder.rs` compares the luma of a frame with that of the frame before,
both averaged over blocks of eight by eight pixels, and asks phase correlation for the displacement
of a region. When there is one it sends a `BlitCommand`, which tells the receiver to move the
region, and the pixels of the strip that the move exposes.

`BlitCommand.apply` is the receiver, as the documentation of the command describes it, on a screen
that has a pixel at each pair of integers. `Consistent` says what a result has to meet, and
`detect_consistent_iff` when all results with a displacement do: the displacement has to fit into
the region, and the region into the 16 bits of the fields that describe it. That this is necessary
needs frames for which the displacement is found and which tell inconsistent results apart. Phase
correlation does not look at the fourth byte of a pixel, so one pair of frames gives enough of them
(`Frame.withAlpha`).
-/

namespace LowBand.Platform

open Lib

/-! ## The wire command -/

/-- `BlitCommand`. -/
structure BlitCommand where
  /-- The left edge of the region. -/
  regionX : ℤ
  /-- The upper edge of the region. -/
  regionY : ℤ
  /-- The width of the region. -/
  regionW : ℕ
  /-- The height of the region. -/
  regionH : ℕ
  /-- How far the content moves to the right. -/
  dx : ℤ
  /-- How far the content moves down. -/
  dy : ℤ
  /-- The width of the strip. -/
  stripW : ℕ
  /-- The height of the strip. -/
  stripH : ℕ
deriving DecidableEq

namespace BlitCommand

/-- `to_bytes`. -/
def toBytes (c : BlitCommand) : List UInt8 :=
  leBytesI16 c.regionX ++ (leBytesI16 c.regionY ++ (leBytes 2 c.regionW ++ (leBytes 2 c.regionH ++
    (leBytesI16 c.dx ++ (leBytesI16 c.dy ++ (leBytes 2 c.stripW ++ leBytes 2 c.stripH))))))

/-- `from_bytes`. -/
def fromBytes (b : List UInt8) : BlitCommand where
  regionX := ofLEI16 (b.take 2)
  regionY := ofLEI16 ((b.drop 2).take 2)
  regionW := ofLE ((b.drop 4).take 2)
  regionH := ofLE ((b.drop 6).take 2)
  dx := ofLEI16 ((b.drop 8).take 2)
  dy := ofLEI16 ((b.drop 10).take 2)
  stripW := ofLE ((b.drop 12).take 2)
  stripH := ofLE ((b.drop 14).take 2)

/-- `strip_origin`. -/
def stripOrigin (c : BlitCommand) : ℤ × ℤ :=
  if c.dy < 0 then (c.regionX, c.regionY + c.regionH + c.dy)
  else if c.dy > 0 then (c.regionX, c.regionY)
  else if c.dx < 0 then (c.regionX + c.regionW + c.dx, c.regionY)
  else (c.regionX, c.regionY)

section Origin

variable {c : BlitCommand}

/-- The content moves up. -/
theorem stripOrigin_up (h : c.dy < 0) :
    c.stripOrigin = (c.regionX, c.regionY + c.regionH + c.dy) := if_pos h

/-- The content moves down. -/
theorem stripOrigin_down (h : 0 < c.dy) : c.stripOrigin = (c.regionX, c.regionY) := by
  rw [stripOrigin, if_neg (by omega), if_pos h]

/-- The content moves left. -/
theorem stripOrigin_left (h : c.dy = 0) (hdx : c.dx < 0) :
    c.stripOrigin = (c.regionX + c.regionW + c.dx, c.regionY) := by
  rw [stripOrigin, if_neg (by omega), if_neg (by omega), if_pos hdx]

/-- The content moves right. -/
theorem stripOrigin_right (h : c.dy = 0) (hdx : 0 < c.dx) :
    c.stripOrigin = (c.regionX, c.regionY) := by
  rw [stripOrigin, if_neg (by omega), if_neg (by omega), if_neg (by omega)]

end Origin

/-- The fields are in the range of their types, `i16` and `u16`. -/
structure InRange (c : BlitCommand) : Prop where
  /-- The left edge is an `i16`. -/
  regionX : -2 ^ 15 ≤ c.regionX ∧ c.regionX < 2 ^ 15
  /-- The upper edge is an `i16`. -/
  regionY : -2 ^ 15 ≤ c.regionY ∧ c.regionY < 2 ^ 15
  /-- The width is a `u16`. -/
  regionW : c.regionW < 2 ^ 16
  /-- The height is a `u16`. -/
  regionH : c.regionH < 2 ^ 16
  /-- The displacement to the right is an `i16`. -/
  dx : -2 ^ 15 ≤ c.dx ∧ c.dx < 2 ^ 15
  /-- The displacement down is an `i16`. -/
  dy : -2 ^ 15 ≤ c.dy ∧ c.dy < 2 ^ 15
  /-- The width of the strip is a `u16`. -/
  stripW : c.stripW < 2 ^ 16
  /-- The height of the strip is a `u16`. -/
  stripH : c.stripH < 2 ^ 16

/-- A command reads back from its bytes. -/
theorem fromBytes_toBytes {c : BlitCommand} (h : c.InRange) : fromBytes c.toBytes = c := by
  obtain ⟨hx, hy, hw, hh, hdx, hdy, hsw, hsh⟩ := h
  have hfields : fromBytes c.toBytes = ⟨ofLEI16 (leBytesI16 c.regionX),
      ofLEI16 (leBytesI16 c.regionY), ofLE (leBytes 2 c.regionW), ofLE (leBytes 2 c.regionH),
      ofLEI16 (leBytesI16 c.dx), ofLEI16 (leBytesI16 c.dy), ofLE (leBytes 2 c.stripW),
      ofLE (leBytes 2 c.stripH)⟩ := rfl
  have hword : 256 ^ 2 = 2 ^ 16 := rfl
  rw [hfields, ofLEI16_leBytesI16 hx.1 hx.2, ofLEI16_leBytesI16 hy.1 hy.2,
    ofLEI16_leBytesI16 hdx.1 hdx.2, ofLEI16_leBytesI16 hdy.1 hdy.2, ofLE_leBytes, ofLE_leBytes,
    ofLE_leBytes, ofLE_leBytes, hword, Nat.mod_eq_of_lt hw, Nat.mod_eq_of_lt hh,
    Nat.mod_eq_of_lt hsw, Nat.mod_eq_of_lt hsh]

end BlitCommand

/-- `BlitResult`. -/
structure BlitResult where
  /-- The command. -/
  command : BlitCommand
  /-- The pixels of the exposed strip, row by row. -/
  exposedStrip : List UInt8

/-! ## The luma of blocks -/

/-- `SmallFrame`. -/
structure SmallFrame where
  /-- One byte for each block, row by row. -/
  luma : List UInt8
  /-- The width in blocks. -/
  w : ℕ
  /-- The height in blocks. -/
  h : ℕ
  /-- The width of the frame. -/
  origW : ℕ
  /-- The height of the frame. -/
  origH : ℕ

/-- The rows or columns of a block that the loops take, until they break at the end of the frame. -/
def blockClip (start limit : ℕ) : List ℕ :=
  (List.range 8).takeWhile fun k => asU32 (start + k) < limit

/-- The luma of the pixel at an offset; `none` when an index is out of bounds. -/
def lumaAt (pixels : List UInt8) (off : ℕ) : Option ℕ := do
  let b ← pixels[off]?
  let g ← pixels[off + 1]?
  let r ← pixels[off + 2]?
  pure ((2 * r.toNat + 5 * g.toNat + b.toNat) / 8)

/-- The average of a block of `compute_luma_small`. -/
def lumaBlock (pixels : List UInt8) (frameW frameH stride sx sy : ℕ) : Option UInt8 := do
  let rows ← (blockClip (asU32 (sy * 8)) frameH).mapM fun dy =>
    (blockClip (asU32 (sx * 8)) frameW).mapM fun dx =>
      let fy := asU32 (asU32 (sy * 8) + dy)
      let fx := asU32 (asU32 (sx * 8) + dx)
      lumaAt pixels (asU32 (asU32 (fy * stride) + asU32 (fx * 4)))
  let values := rows.flatten
  pure (if values.length > 0 then UInt8.ofNat (values.sum / values.length) else 0)

/-- The loops of `compute_luma_small`: the byte of each block goes to its place. -/
def fillLuma (w h : ℕ) (block : ℕ → ℕ → Option UInt8) : Option (List UInt8) :=
  (List.range h).foldlM (fun luma sy =>
    (List.range w).foldlM (fun luma sx => do
      let value ← block sx sy
      let k := asU32 (asU32 (sy * w) + sx)
      if k < luma.length then pure (luma.set k value) else none) luma)
    (List.replicate (asU32 (w * h)) 0)

/-- `compute_luma_small`. -/
def computeLumaSmall (pixels : List UInt8) (frameW frameH stride : ℕ) : Option SmallFrame := do
  let w := (frameW + 7) / 8
  let h := (frameH + 7) / 8
  let luma ← fillLuma w h (lumaBlock pixels frameW frameH stride)
  pure ⟨luma, w, h, frameW, frameH⟩

/-- `extract_roi`. -/
def extractRoi (luma : List UInt8) (lumaW rx ry rw rh : ℕ) : Option (List UInt8) :=
  (List.range rh).foldlM (fun roi y =>
    copySlice rw roi (asU32 (y * rw)) luma (asU32 (asU32 (asU32 (ry + y) * lumaW) + rx)))
    (List.replicate (asU32 (rw * rh)) 0)

/-! ## The strip -/

/-- `compute_strip`: the left and upper edge of the strip, its width and its height. -/
def computeStrip (rx ry : ℤ) (rw rh : ℕ) (dx dy : ℤ) : ℤ × ℤ × ℕ × ℕ :=
  if dy < 0 then (rx, wrapI32 (wrapI32 (ry + asI32 rh) + dy), rw, (-dy % 2 ^ 32).toNat)
  else if dy > 0 then (rx, ry, rw, (dy % 2 ^ 32).toNat)
  else if dx < 0 then (wrapI32 (wrapI32 (rx + asI32 rw) + dx), ry, (-dx % 2 ^ 32).toNat, rh)
  else (rx, ry, (dx % 2 ^ 32).toNat, rh)

/-- The rows or columns of a strip that lie in the frame; the others are skipped. -/
def stripClip (start : ℤ) (count limit : ℕ) : List ℕ :=
  (List.range count).filter fun k =>
    0 ≤ wrapI32 (start + asI32 k) ∧ wrapI32 (start + asI32 k) < asI32 limit

/-- `extract_strip_pixels`; `none` when a slice is out of bounds. -/
def extractStripPixels (pixels : List UInt8) (frameW frameH stride : ℕ) (stripX stripY : ℤ)
    (stripW stripH : ℕ) : Option (List UInt8) :=
  copyRect (stripClip stripY stripH frameH) (stripClip stripX stripW frameW)
    (fun row col => asU32 (asU32 (asU32 (row * stripW) + col) * 4))
    (fun row col => asU32 (asU32 ((wrapI32 (stripY + asI32 row)).toNat * stride) +
      asU32 ((wrapI32 (stripX + asI32 col)).toNat * 4)))
    (List.replicate (asU32 (asU32 (stripW * stripH) * 4)) 0) pixels

/-! ## The detector -/

/-- `SCROLL_MAX_SMALL_SHIFT`. -/
def scrollMaxSmallShift : ℤ := 16

/-- `SCROLL_MIN_REGION_PX`. -/
def scrollMinRegionPx : ℕ := 64

/-- The size of a region in the frame along one axis, as `detect` computes it. -/
def regionSize (pos : ℤ) (size limit : ℕ) : ℕ :=
  (min (max (wrapI32 (pos + asI32 size)) 0) (asI32 limit) % 2 ^ 32).toNat - clipStart pos

/-- The size of a region in blocks along one axis. -/
def blockCount (start size prevLimit currLimit : ℕ) : ℕ :=
  min (min ((size + 7) / 8) (prevLimit - start / 8)) (currLimit - start / 8)

/-- The displacement in pixels along the axis on which it is larger. -/
def dominantShift (su sv : ℤ) : ℤ × ℤ := if |su| ≥ |sv| then (-(su * 8), 0) else (0, -(sv * 8))

/-- The cast of a number to `i16`. -/
def wrapI16 (z : ℤ) : ℤ := z.bmod (2 ^ 16)

/-- The cast of a number to `u16`. -/
def asU16 (n : ℕ) : ℕ := n % 2 ^ 16

/-- What `detect` returns for a displacement of a region of the frame. -/
def blitResult (pixels : List UInt8) (frameW frameH stride rx ry rw rh : ℕ) (su sv : ℤ) :
    Option (Option BlitResult) :=
  let (dx, dy) := dominantShift su sv
  if dx = 0 ∧ dy = 0 then pure none
  else
    let (stripX, stripY, stripW, stripH) := computeStrip (asI32 rx) (asI32 ry) rw rh dx dy
    if stripW = 0 ∨ stripH = 0 then pure none
    else do
      let exposedStrip ←
        extractStripPixels pixels frameW frameH stride stripX stripY stripW stripH
      pure (some ⟨⟨wrapI16 rx, wrapI16 ry, asU16 rw, asU16 rh, wrapI16 dx, wrapI16 dy,
        asU16 stripW, asU16 stripH⟩, exposedStrip⟩)

/-- `ScrollDetector`: the luma of the frame before. -/
structure ScrollDetector where
  /-- The luma. -/
  prev : Option SmallFrame

namespace ScrollDetector

variable (cos sin : Float32 → Float32)

/-- The displacement in blocks that phase correlation finds between two patches, if it finds one;
the outer `none` when an index is out of bounds. -/
def patchShift (prev curr : SmallFrame) (rx ry sw sh : ℕ) : Option (Option (ℤ × ℤ)) := do
  let prevRoi ← extractRoi prev.luma prev.w (rx / 8) (ry / 8) sw sh
  let currRoi ← extractRoi curr.luma curr.w (rx / 8) (ry / 8) sw sh
  phaseCorrelate cos sin prevRoi currRoi sw sh scrollMaxSmallShift

/-- The comparison of a frame with the one before; `none` when an index is out of bounds. -/
def compare (d : ScrollDetector) (curr : SmallFrame) (pixels : List UInt8)
    (frameW frameH stride : ℕ) (region : DirtyRect) : Option (Option BlitResult) :=
  match d.prev with
  | none => pure none
  | some prev =>
    if prev.origW ≠ frameW ∨ prev.origH ≠ frameH then pure none
    else
      let rx := clipStart region.x
      let ry := clipStart region.y
      let rw := regionSize region.x region.width frameW
      let rh := regionSize region.y region.height frameH
      if rw < scrollMinRegionPx ∨ rh < scrollMinRegionPx then pure none
      else
        let sw := blockCount rx rw prev.w curr.w
        let sh := blockCount ry rh prev.h curr.h
        if sw < 4 ∨ sh < 4 then pure none
        else do
          match ← patchShift cos sin prev curr rx ry sw sh with
          | none => pure none
          | some (su, sv) => blitResult pixels frameW frameH stride rx ry rw rh su sv

/-- `detect`; `none` when an index is out of bounds. -/
def detect (d : ScrollDetector) (pixels : List UInt8) (frameW frameH stride : ℕ)
    (region : DirtyRect) : Option (Option BlitResult × ScrollDetector) := do
  let curr ← computeLumaSmall pixels frameW frameH stride
  let result ← d.compare cos sin curr pixels frameW frameH stride region
  pure (result, ⟨some curr⟩)

end ScrollDetector

/-! ## No index is out of bounds -/

namespace Frame

variable {width height : ℕ} (f : Frame width height)

/-- The offset of a pixel of the frame does not wrap, and the pixel lies in the buffer. -/
theorem offset_eq {x y : ℕ} (hx : x < width) (hy : y < height) :
    asU32 (asU32 (y * f.stride) + asU32 (x * 4)) = y * f.stride + x * 4 ∧
      y * f.stride + x * 4 + 4 ≤ f.pixels.length := by
  have hwide := f.wide
  have hsize := f.size_lt
  have hlen := f.length_le (by omega)
  have hrow : y * f.stride ≤ f.stride * (height - 1) := by
    rw [Nat.mul_comm]
    exact Nat.mul_le_mul_left f.stride (by omega)
  have hlast : f.stride * (height - 1) + f.stride = f.stride * height := by
    rw [← Nat.mul_succ, Nat.succ_eq_add_one, Nat.sub_add_cancel (by omega)]
  rw [asU32_of_lt (by omega : y * f.stride < 2 ^ 32), asU32_of_lt (by omega : x * 4 < 2 ^ 32),
    asU32_of_lt (by omega)]
  exact ⟨rfl, by omega⟩

include f in
/-- The bytes of the pixels of a frame fit `u32`. -/
theorem area_lt : width * height * 4 < 2 ^ 32 := by
  have hmul : width * 4 * height ≤ f.stride * height := Nat.mul_le_mul_right height f.wide
  have hsize := f.size_lt
  rw [Nat.mul_right_comm]
  omega

include f in
/-- The sides of a frame with a pixel have 30 bits. -/
theorem sides_lt (hw : 0 < width) (hh : 0 < height) : width < 2 ^ 30 ∧ height < 2 ^ 30 := by
  have harea := f.area_lt
  have hwidth := Nat.le_mul_of_pos_right width hh
  have hheight := Nat.le_mul_of_pos_left height hw
  omega

end Frame

/-- The clipped range of a block has those of its eight places that are within the frame. -/
theorem mem_blockClip {start limit k : ℕ} (hstart : start + 8 ≤ 2 ^ 32) :
    k ∈ blockClip start limit ↔ k < 8 ∧ start + k < limit := by
  rw [blockClip, mem_takeWhile_range]
  constructor
  · rintro ⟨hk, hall⟩
    have hlt := of_decide_eq_true (hall k le_rfl)
    rw [asU32_of_lt (by omega)] at hlt
    exact ⟨hk, hlt⟩
  · rintro ⟨hk, hlt⟩
    refine ⟨hk, fun y hy => decide_eq_true ?_⟩
    rw [asU32_of_lt (by omega)]
    omega

section Luma

variable {width height : ℕ} (f : Frame width height)

/-- The average over a block of values that the pixels have. -/
def blockMean (width height : ℕ) (value : ℕ → ℕ → ℕ) (sx sy : ℕ) : UInt8 :=
  let values := ((blockClip (sy * 8) height).map fun dy =>
    (blockClip (sx * 8) width).map fun dx => value (sx * 8 + dx) (sy * 8 + dy)).flatten
  if values.length > 0 then UInt8.ofNat (values.sum / values.length) else 0

/-- The luma of the pixels is known. -/
def HasLuma (value : ℕ → ℕ → ℕ) : Prop :=
  ∀ x < width, ∀ y < height, lumaAt (f.pixel x y) 0 = some (value x y)

/-- The luma of a pixel is that of its bytes. -/
theorem lumaAt_pixels {x y : ℕ} (hx : x < width) (hy : y < height) :
    lumaAt f.pixels (asU32 (asU32 (y * f.stride) + asU32 (x * 4))) = lumaAt (f.pixel x y) 0 := by
  obtain ⟨hoff, hend⟩ := f.offset_eq hx hy
  rw [hoff]
  unfold lumaAt Frame.pixel stridedPixel
  simp only [List.getElem?_take, List.getElem?_drop]
  rfl

/-- Every frame has a luma. -/
theorem exists_hasLuma : ∃ value, HasLuma f value := by
  refine ⟨fun x y => (lumaAt (f.pixel x y) 0).getD 0, fun x hx y hy => ?_⟩
  obtain ⟨v, hv⟩ : ∃ v, lumaAt (f.pixel x y) 0 = some v := by
    obtain ⟨hoff, hend⟩ := f.offset_eq hx hy
    rw [← lumaAt_pixels f hx hy, hoff]
    unfold lumaAt
    rw [List.getElem?_eq_getElem (by omega), List.getElem?_eq_getElem (by omega),
      List.getElem?_eq_getElem (by omega)]
    exact ⟨_, rfl⟩
  dsimp only
  rw [hv, Option.getD_some]

variable {f} {value : ℕ → ℕ → ℕ} (hvalue : HasLuma f value)

include hvalue

/-- The byte of a block is the average of its luma. -/
theorem lumaBlock_eq {sx sy : ℕ} (hsx : sx < (width + 7) / 8) (hsy : sy < (height + 7) / 8) :
    lumaBlock f.pixels width height f.stride sx sy =
      some (blockMean width height value sx sy) := by
  obtain ⟨hw, hh⟩ := f.sides_lt (by omega) (by omega)
  have hx : asU32 (sx * 8) = sx * 8 := asU32_of_lt (by omega)
  have hy : asU32 (sy * 8) = sy * 8 := asU32_of_lt (by omega)
  -- Row by row: every pixel of the clipped block lies in the frame.
  have hrow : ∀ dy ∈ blockClip (sy * 8) height,
      (blockClip (sx * 8) width).mapM (fun dx => lumaAt f.pixels
        (asU32 (asU32 (asU32 (sy * 8 + dy) * f.stride) + asU32 (asU32 (sx * 8 + dx) * 4)))) =
        some ((blockClip (sx * 8) width).map fun dx => value (sx * 8 + dx) (sy * 8 + dy)) := by
    intro dy hdy
    rw [mem_blockClip (by omega)] at hdy
    refine mapM_eq_map fun dx hdx => ?_
    rw [mem_blockClip (by omega)] at hdx
    rw [asU32_of_lt (by omega : sy * 8 + dy < 2 ^ 32),
      asU32_of_lt (by omega : sx * 8 + dx < 2 ^ 32), lumaAt_pixels f hdx.2 hdy.2]
    exact hvalue _ hdx.2 _ hdy.2
  unfold lumaBlock
  rw [hx, hy, mapM_eq_map hrow]
  rfl

/-- The luma of a frame is made of the averages. -/
theorem computeLumaSmall_eq :
    computeLumaSmall f.pixels width height f.stride =
      (fillLuma ((width + 7) / 8) ((height + 7) / 8) fun sx sy =>
        some (blockMean width height value sx sy)).map fun luma =>
          ⟨luma, (width + 7) / 8, (height + 7) / 8, width, height⟩ := by
  unfold computeLumaSmall
  dsimp only
  rw [Option.map_eq_bind]
  congr 1
  unfold fillLuma
  refine foldlM_congr (fun luma sy hsy => foldlM_congr (fun luma sx hsx => ?_) luma) _
  rw [lumaBlock_eq hvalue (List.mem_range.mp hsx) (List.mem_range.mp hsy)]

omit hvalue

variable (f)

/-- What is known of the luma of a frame. -/
structure SmallFrame.Fits (width height : ℕ) (s : SmallFrame) : Prop where
  /-- The width in blocks. -/
  w_eq : s.w = (width + 7) / 8
  /-- The height in blocks. -/
  h_eq : s.h = (height + 7) / 8
  /-- The width of the frame. -/
  origW_eq : s.origW = width
  /-- The height of the frame. -/
  origH_eq : s.origH = height
  /-- There is a byte for each block. -/
  length_eq : s.luma.length = s.w * s.h
  /-- The places of the bytes do not wrap. -/
  size_lt : s.w * s.h < 2 ^ 32

/-- The small frame of a frame is there, and fits it. -/
theorem computeLumaSmall_total :
    ∃ s, computeLumaSmall f.pixels width height f.stride = some s ∧ s.Fits width height := by
  have hsize : (width + 7) / 8 * ((height + 7) / 8) < 2 ^ 32 := by
    have harea := f.area_lt
    have hle : (width + 7) / 8 * ((height + 7) / 8) ≤ width * height :=
      Nat.mul_le_mul (by omega) (by omega)
    omega
  obtain ⟨value, hvalue⟩ := exists_hasLuma f
  rw [computeLumaSmall_eq hvalue]
  generalize hw : (width + 7) / 8 = w at hsize ⊢
  generalize hh : (height + 7) / 8 = h at hsize ⊢
  unfold fillLuma
  -- Each block is stored at a place inside the picture, which keeps its length.
  have hloop : ∀ sy ∈ List.range h, ∀ luma : List UInt8, luma.length = w * h → ∃ luma',
      (List.range w).foldlM (fun luma sx => do
        let value ← some (blockMean width height value sx sy)
        let k := asU32 (asU32 (sy * w) + sx)
        if k < luma.length then pure (luma.set k value) else none) luma = some luma' ∧
        luma'.length = w * h := by
    intro sy hsy luma hluma
    rw [List.mem_range] at hsy
    apply foldlM_total (fun luma : List UInt8 => luma.length = w * h) _ hluma
    intro sx hsx mid hmid
    rw [List.mem_range] at hsx
    have hplace : sy * w + sx < w * h := by
      have hrow : (sy + 1) * w ≤ h * w := Nat.mul_le_mul_right w hsy
      rw [Nat.succ_mul, Nat.mul_comm h w] at hrow
      omega
    refine ⟨mid.set (sy * w + sx) (blockMean width height value sx sy), ?_,
      by rw [List.length_set, hmid]⟩
    rw [asU32_of_lt (by omega : sy * w < 2 ^ 32), asU32_of_lt (by omega)]
    simp only [Option.bind_eq_bind, Option.bind_some, hmid, hplace, if_true, Option.pure_def]
  have hstart : (List.replicate (asU32 (w * h)) (0 : UInt8)).length = w * h := by
    rw [List.length_replicate, asU32_of_lt hsize]
  obtain ⟨luma, hluma, hlen⟩ := foldlM_total _ hloop hstart
  refine ⟨⟨luma, w, h, width, height⟩, ?_, hw.symm, hh.symm, rfl, rfl, hlen, hsize⟩
  rw [hluma]
  rfl

end Luma

/-- A region within the frame is extracted. -/
theorem extractRoi_total {luma : List UInt8} {lumaW lumaH rx ry rw rh : ℕ}
    (hlen : luma.length = lumaW * lumaH) (hsize : lumaW * lumaH < 2 ^ 32) (hrw : 0 < rw)
    (hx : rx + rw ≤ lumaW) (hy : ry + rh ≤ lumaH) :
    ∃ roi, extractRoi luma lumaW rx ry rw rh = some roi ∧ roi.length = rw * rh := by
  have hheight : lumaH < 2 ^ 32 := by
    have := Nat.le_mul_of_pos_left lumaH (by omega : 0 < lumaW)
    omega
  have hroi : rw * rh ≤ lumaW * lumaH := Nat.mul_le_mul (by omega) (by omega)
  -- A row of the patch lies inside the small picture.
  have hstep : ∀ y ∈ List.range rh, ∀ roi : List UInt8, roi.length = rw * rh → ∃ roi',
      copySlice rw roi (asU32 (y * rw)) luma (asU32 (asU32 (asU32 (ry + y) * lumaW) + rx)) =
        some roi' ∧ roi'.length = rw * rh := by
    intro y hy' roi hroi'
    rw [List.mem_range] at hy'
    have hdst : (y + 1) * rw ≤ rw * rh := by
      rw [Nat.mul_comm rw rh]
      exact Nat.mul_le_mul_right rw hy'
    have hsrc : (ry + y + 1) * lumaW ≤ lumaW * lumaH := by
      rw [Nat.mul_comm lumaW lumaH]
      exact Nat.mul_le_mul_right lumaW (by omega)
    rw [Nat.succ_mul] at hdst hsrc
    rw [asU32_of_lt (by omega : y * rw < 2 ^ 32), asU32_of_lt (by omega : ry + y < 2 ^ 32),
      asU32_of_lt (by omega : (ry + y) * lumaW < 2 ^ 32), asU32_of_lt (by omega)]
    unfold copySlice
    rw [if_pos (by omega)]
    refine ⟨_, rfl, ?_⟩
    rw [length_writeAt, hroi']
    rw [List.length_take, List.length_drop]
    omega
  have hstart : (List.replicate (asU32 (rw * rh)) (0 : UInt8)).length = rw * rh := by
    rw [List.length_replicate, asU32_of_lt (by omega)]
  exact foldlM_total _ hstep hstart

/-! ## The region -/

/-- A pixel of the frame that lies in a region. -/
def DirtyRect.Visible (region : DirtyRect) (width height : ℕ) (x y : ℤ) : Prop :=
  (region.x ≤ x ∧ x < region.x + region.width) ∧ (region.y ≤ y ∧ y < region.y + region.height) ∧
    (0 ≤ x ∧ x < width) ∧ 0 ≤ y ∧ y < height

/-- Along one axis the code takes the part of the region that lies in the frame, or nothing when the
end of the region does not fit `i32`. -/
theorem regionSize_spec {pos : ℤ} {size limit : ℕ} (hpos : -2 ^ 31 ≤ pos) (hpos' : pos < 2 ^ 31)
    (hsize : size < 2 ^ 32) (hlimit : limit < 2 ^ 30) (hlarge : 0 < regionSize pos size limit) :
    (clipStart pos : ℤ) = max pos 0 ∧
      (clipStart pos : ℤ) + regionSize pos size limit = min (pos + size) limit := by
  have hend : wrapI32 (pos + asI32 size) = (pos + size).bmod (2 ^ 32) := by
    unfold wrapI32 asI32
    rw [Int.add_bmod_bmod]
  have hwrap : (pos + size).bmod (2 ^ 32) =
      if pos + size < 2 ^ 31 then pos + size else pos + size - 2 ^ 32 := by
    rw [Int.bmod_def]
    split <;> split <;> omega
  unfold regionSize clipStart at hlarge ⊢
  rw [hend, hwrap, asI32_of_lt (by omega : limit < 2 ^ 31)] at hlarge ⊢
  split at hlarge <;> omega

section Region

variable {width height : ℕ} {region : DirtyRect}

/-- The pixels of a region that is large enough are those of the rectangle that the code takes. -/
theorem visible_iff (hregion : region.InRange) (hw : width < 2 ^ 30) (hh : height < 2 ^ 30)
    (hrw : 0 < regionSize region.x region.width width)
    (hrh : 0 < regionSize region.y region.height height) {x y : ℤ} :
    region.Visible width height x y ↔
      ((clipStart region.x : ℤ) ≤ x ∧
        x < clipStart region.x + regionSize region.x region.width width) ∧
      (clipStart region.y : ℤ) ≤ y ∧
        y < clipStart region.y + regionSize region.y region.height height := by
  obtain ⟨hx0, hx1⟩ :=
    regionSize_spec hregion.x_mem.1 hregion.x_mem.2 hregion.width_lt hw hrw
  obtain ⟨hy0, hy1⟩ :=
    regionSize_spec hregion.y_mem.1 hregion.y_mem.2 hregion.height_lt hh hrh
  unfold DirtyRect.Visible
  omega

/-- A region that is large enough has at least four blocks along an axis, and they lie among those
of the frame. -/
theorem blockCount_spec {start size limit w w' : ℕ} (hfits : start + size ≤ limit)
    (hlarge : scrollMinRegionPx ≤ size) (hw : w = (limit + 7) / 8) (hw' : w' = (limit + 7) / 8) :
    4 ≤ blockCount start size w w' ∧ start / 8 + blockCount start size w w' ≤ (limit + 7) / 8 := by
  unfold scrollMinRegionPx at hlarge
  unfold blockCount
  omega

/-- So it has along both axes, in the small pictures of both frames. -/
theorem blockCounts_spec {region : DirtyRect} (hregion : region.InRange) {width height : ℕ}
    (hw : width < 2 ^ 30) (hh : height < 2 ^ 30)
    (hrw : scrollMinRegionPx ≤ regionSize region.x region.width width)
    (hrh : scrollMinRegionPx ≤ regionSize region.y region.height height) {ps cs : SmallFrame}
    (hps : ps.Fits width height) (hcs : cs.Fits width height) :
    let sw := blockCount (clipStart region.x) (regionSize region.x region.width width) ps.w cs.w
    let sh := blockCount (clipStart region.y) (regionSize region.y region.height height) ps.h cs.h
    (4 ≤ sw ∧ clipStart region.x / 8 + sw ≤ (width + 7) / 8) ∧
      4 ≤ sh ∧ clipStart region.y / 8 + sh ≤ (height + 7) / 8 := by
  have hrw' : 0 < regionSize region.x region.width width := lt_of_lt_of_le (by decide) hrw
  have hrh' : 0 < regionSize region.y region.height height := lt_of_lt_of_le (by decide) hrh
  obtain ⟨-, hx1⟩ := regionSize_spec hregion.x_mem.1 hregion.x_mem.2 hregion.width_lt hw hrw'
  obtain ⟨-, hy1⟩ := regionSize_spec hregion.y_mem.1 hregion.y_mem.2 hregion.height_lt hh hrh'
  exact ⟨blockCount_spec (by omega) hrw hps.w_eq hcs.w_eq,
    blockCount_spec (by omega) hrh hps.h_eq hcs.h_eq⟩

end Region

namespace ScrollDetector

variable {width height : ℕ}

/-- The detector stores the luma of a frame. -/
def Saw (d : ScrollDetector) (f : Frame width height) : Prop :=
  ∃ s, computeLumaSmall f.pixels width height f.stride = some s ∧ d.prev = some s

variable (cos sin : Float32 → Float32)

/-- Phase correlation finds this displacement of a region, in blocks, from one frame to the next. -/
def Finds (region : DirtyRect) (prev curr : Frame width height) (su sv : ℤ) : Prop :=
  ∃ ps cs, computeLumaSmall prev.pixels width height prev.stride = some ps ∧
    computeLumaSmall curr.pixels width height curr.stride = some cs ∧
    patchShift cos sin ps cs (clipStart region.x) (clipStart region.y)
      (blockCount (clipStart region.x) (regionSize region.x region.width width) ps.w cs.w)
      (blockCount (clipStart region.y) (regionSize region.y region.height height) ps.h cs.h) =
        some (some (su, sv))

variable {cos sin}

/-- The displacement between the patches that the frames have. -/
theorem patchShift_eq {ps cs : SmallFrame} {rx ry sw sh : ℕ} {a b : List UInt8}
    (ha : extractRoi ps.luma ps.w (rx / 8) (ry / 8) sw sh = some a)
    (hb : extractRoi cs.luma cs.w (rx / 8) (ry / 8) sw sh = some b) :
    patchShift cos sin ps cs rx ry sw sh =
      phaseCorrelate cos sin a b sw sh scrollMaxSmallShift := by
  unfold patchShift
  rw [ha, hb]
  simp only [Option.bind_eq_bind, Option.bind_some]

/-- It finds one displacement. -/
theorem Finds.unique {region : DirtyRect} {prev curr : Frame width height} {su sv su' sv' : ℤ}
    (h : Finds cos sin region prev curr su sv) (h' : Finds cos sin region prev curr su' sv') :
    su' = su ∧ sv' = sv := by
  obtain ⟨ps, cs, hps, hcs, hshift⟩ := h
  obtain ⟨ps', cs', hps', hcs', hshift'⟩ := h'
  obtain rfl := Option.some.inj (hps.symm.trans hps')
  obtain rfl := Option.some.inj (hcs.symm.trans hcs')
  rw [hshift] at hshift'
  cases hshift'
  exact ⟨rfl, rfl⟩

/-- The displacement is not zero, and it is one of the search along one axis. -/
theorem Finds.mem_shifts {region : DirtyRect} {prev curr : Frame width height} {su sv : ℤ}
    (h : Finds cos sin region prev curr su sv) :
    |su| ≤ scrollMaxSmallShift ∧ |sv| ≤ scrollMaxSmallShift ∧ ¬(su = 0 ∧ sv = 0) := by
  obtain ⟨ps, cs, -, -, hshift⟩ := h
  obtain ⟨a, -, hshift⟩ := Option.bind_eq_some_iff.mp hshift
  obtain ⟨b, -, hshift⟩ := Option.bind_eq_some_iff.mp hshift
  have hzero : |(0 : ℤ)| ≤ scrollMaxSmallShift := by decide
  rcases phaseCorrelate_spec hshift with ⟨hsu, rfl⟩ | ⟨rfl, hsv⟩
  · obtain ⟨hne, hle⟩ := Platform.mem_shifts.mp hsu
    exact ⟨hle, hzero, fun h => hne h.1⟩
  · obtain ⟨hne, hle⟩ := Platform.mem_shifts.mp hsv
    exact ⟨hzero, hle, fun h => hne h.2⟩

/-- A region that is too small is ignored. -/
theorem detect_of_small {d : ScrollDetector} {prev curr : Frame width height} (hd : d.Saw prev)
    {region : DirtyRect} (hsmall : regionSize region.x region.width width < scrollMinRegionPx ∨
      regionSize region.y region.height height < scrollMinRegionPx) :
    ∃ d', d.detect cos sin curr.pixels width height curr.stride region =
      some (none, d') := by
  obtain ⟨ps, hps, hprev⟩ := hd
  obtain ⟨ps', hps', hfits⟩ := computeLumaSmall_total prev
  obtain rfl : ps = ps' := Option.some.inj (hps.symm.trans hps')
  obtain ⟨cs, hcs, -⟩ := computeLumaSmall_total curr
  refine ⟨⟨some cs⟩, ?_⟩
  -- The frame has the size of the last one, and the region is too small.
  have hcompare : d.compare cos sin cs curr.pixels width height curr.stride region =
      some none := by
    unfold compare
    rw [hprev]
    dsimp only
    rw [if_neg (by rw [hfits.origW_eq, hfits.origH_eq]; simp), if_pos hsmall]
    rfl
  unfold detect
  rw [hcs, Option.bind_eq_bind, Option.bind_some, hcompare]
  rfl

/-- The blocks of a region that is large enough lie in the small pictures of both frames, so phase
correlation gives an answer for them. -/
theorem exists_patchShift {region : DirtyRect} (hregion : region.InRange) (hw : width < 2 ^ 30)
    (hh : height < 2 ^ 30) (hrw : scrollMinRegionPx ≤ regionSize region.x region.width width)
    (hrh : scrollMinRegionPx ≤ regionSize region.y region.height height) {ps cs : SmallFrame}
    (hps : ps.Fits width height) (hcs : cs.Fits width height) :
    ∃ shift, patchShift cos sin ps cs (clipStart region.x) (clipStart region.y)
      (blockCount (clipStart region.x) (regionSize region.x region.width width) ps.w cs.w)
      (blockCount (clipStart region.y) (regionSize region.y region.height height) ps.h cs.h) =
        some shift := by
  obtain ⟨⟨hsw, hsx⟩, hsh, hsy⟩ := blockCounts_spec hregion hw hh hrw hrh hps hcs
  obtain ⟨proi, hproi, hplen⟩ := extractRoi_total hps.length_eq hps.size_lt (by omega)
    (hsx.trans_eq hps.w_eq.symm) (hsy.trans_eq hps.h_eq.symm)
  obtain ⟨croi, hcroi, hclen⟩ := extractRoi_total hcs.length_eq hcs.size_lt (by omega)
    (hsx.trans_eq hcs.w_eq.symm) (hsy.trans_eq hcs.h_eq.symm)
  obtain ⟨shift, hshift⟩ := phaseCorrelate_total cos sin scrollMaxSmallShift hplen hclen
  exact ⟨shift, (patchShift_eq hproi hcroi).trans hshift⟩

/-- A region that is large enough is compared, and the result is that for the displacement that
phase correlation finds. -/
theorem detect_of_large {d : ScrollDetector} {prev curr : Frame width height} (hd : d.Saw prev)
    {region : DirtyRect} (hregion : region.InRange) (hw : width < 2 ^ 30) (hh : height < 2 ^ 30)
    (hrw : scrollMinRegionPx ≤ regionSize region.x region.width width)
    (hrh : scrollMinRegionPx ≤ regionSize region.y region.height height) :
    ∃ (shift : Option (ℤ × ℤ)) (d' : ScrollDetector),
      (∀ su sv, shift = some (su, sv) ↔ Finds cos sin region prev curr su sv) ∧
      d.detect cos sin curr.pixels width height curr.stride region =
        (match shift with
          | none => some none
          | some (su, sv) => blitResult curr.pixels width height curr.stride (clipStart region.x)
              (clipStart region.y) (regionSize region.x region.width width)
              (regionSize region.y region.height height) su sv).map fun r => (r, d') := by
  obtain ⟨ps, hps, hprev⟩ := hd
  obtain ⟨ps', hps', hpfits⟩ := computeLumaSmall_total prev
  obtain rfl : ps = ps' := Option.some.inj (hps.symm.trans hps')
  obtain ⟨cs, hcs, hcfits⟩ := computeLumaSmall_total curr
  obtain ⟨⟨hsw, -⟩, hsh, -⟩ := blockCounts_spec hregion hw hh hrw hrh hpfits hcfits
  obtain ⟨shift, hpatch⟩ :=
    @exists_patchShift _ _ cos sin _ hregion hw hh hrw hrh _ _ hpfits hcfits
  refine ⟨shift, ⟨some cs⟩, fun su sv => ⟨?_, ?_⟩, ?_⟩
  · rintro rfl
    exact ⟨ps, cs, hps, hcs, hpatch⟩
  · rintro ⟨ps', cs', hps', hcs', hfound⟩
    obtain rfl := Option.some.inj (hps.symm.trans hps')
    obtain rfl := Option.some.inj (hcs.symm.trans hcs')
    exact Option.some.inj (hpatch.symm.trans hfound)
  · unfold detect compare
    rw [hcs, hprev, Option.bind_eq_bind, Option.bind_some]
    dsimp only
    rw [if_neg (by rw [hpfits.origW_eq, hpfits.origH_eq]; simp), if_neg (by omega),
      if_neg (by omega), hpatch, Option.map_eq_bind]
    simp only [Option.bind_eq_bind, Option.bind_some]
    rcases shift with _ | ⟨su, sv⟩
    · rfl
    · rfl

end ScrollDetector

/-! ## The pixels of the strip -/

/-- The displacement is along one axis and at most 128 pixels. -/
theorem dominantShift_spec {su sv : ℤ} (hsu : |su| ≤ scrollMaxSmallShift)
    (hsv : |sv| ≤ scrollMaxSmallShift) :
    ((dominantShift su sv).1 = 0 ∨ (dominantShift su sv).2 = 0) ∧
      |(dominantShift su sv).1| ≤ 128 ∧ |(dominantShift su sv).2| ≤ 128 ∧
      ((dominantShift su sv).1 = 0 ∧ (dominantShift su sv).2 = 0 ↔ su = 0 ∧ sv = 0) := by
  unfold scrollMaxSmallShift at hsu hsv
  unfold dominantShift
  simp only [Int.abs_eq_natAbs] at *
  split <;> dsimp only <;> omega

namespace BlitCommand

/-- The command for a displacement of a region, before the casts to 16 bits. -/
def exact (rx ry rw rh : ℕ) (dx dy : ℤ) : BlitCommand :=
  ⟨rx, ry, rw, rh, dx, dy, if dy = 0 then dx.natAbs else rw, if dy = 0 then rh else dy.natAbs⟩

/-- The casts of the fields to 16 bits. -/
def truncate (c : BlitCommand) : BlitCommand :=
  ⟨wrapI16 c.regionX, wrapI16 c.regionY, asU16 c.regionW, asU16 c.regionH, wrapI16 c.dx,
    wrapI16 c.dy, asU16 c.stripW, asU16 c.stripH⟩

/-- A truncated command is in range. -/
theorem inRange_truncate (c : BlitCommand) : c.truncate.InRange := by
  have hi : ∀ z : ℤ, -2 ^ 15 ≤ wrapI16 z ∧ wrapI16 z < 2 ^ 15 := by
    intro z
    exact ⟨Int.le_bmod (by decide), Int.bmod_lt (by decide)⟩
  have hu : ∀ n : ℕ, asU16 n < 2 ^ 16 := fun n => Nat.mod_lt _ (by decide)
  exact ⟨hi _, hi _, hu _, hu _, hi _, hi _, hu _, hu _⟩

/-- The casts keep a command whose fields fit. -/
theorem truncate_of_inRange {c : BlitCommand} (h : c.InRange) : c.truncate = c := by
  have hi : ∀ z : ℤ, -2 ^ 15 ≤ z ∧ z < 2 ^ 15 → wrapI16 z = z := by
    intro z hz
    exact Int.bmod_eq_of_le_mul_two (by omega) (by omega)
  have hu : ∀ n : ℕ, n < 2 ^ 16 → asU16 n = n := fun n => Nat.mod_eq_of_lt
  unfold truncate
  rw [hi _ h.regionX, hi _ h.regionY, hu _ h.regionW, hu _ h.regionH, hi _ h.dx, hi _ h.dy,
    hu _ h.stripW, hu _ h.stripH]

end BlitCommand

/-- The strip is at the place that `strip_origin` gives for the command before the casts. -/
theorem computeStrip_eq {rx ry rw rh : ℕ} {dx dy : ℤ} (hx : rx + rw < 2 ^ 30)
    (hy : ry + rh < 2 ^ 30) (hdx : |dx| ≤ 128) (hdy : |dy| ≤ 128) :
    computeStrip (asI32 rx) (asI32 ry) rw rh dx dy =
      let c := BlitCommand.exact rx ry rw rh dx dy
      (c.stripOrigin.1, c.stripOrigin.2, c.stripW, c.stripH) := by
  unfold computeStrip BlitCommand.stripOrigin
  dsimp only [BlitCommand.exact]
  rw [abs_le] at hdx hdy
  rw [asI32_of_lt (by omega), asI32_of_lt (by omega), asI32_of_lt (by omega),
    asI32_of_lt (by omega)]
  have habs : ∀ z : ℤ, 0 ≤ z → z ≤ 128 → (z % 2 ^ 32).toNat = z.natAbs := by
    intro z h0 h1
    omega
  -- The four directions: up, down, left, right.
  split
  · next hneg =>
    rw [wrapI32_of_mem (by omega : -2 ^ 31 ≤ (ry : ℤ) + rh) (by omega), wrapI32_of_mem (by omega)
      (by omega), habs _ (by omega) (by omega), if_neg (by omega), if_neg (by omega),
      Int.natAbs_neg]
  · split
    · next hpos =>
      rw [habs _ (by omega) (by omega), if_neg (by omega), if_neg (by omega)]
    · have hzero : dy = 0 := by omega
      rw [if_pos hzero, if_pos hzero]
      split
      · next hneg =>
        rw [wrapI32_of_mem (by omega : -2 ^ 31 ≤ (rx : ℤ) + rw) (by omega), wrapI32_of_mem
          (by omega) (by omega), habs _ (by omega) (by omega), Int.natAbs_neg]
      · next hpos => rw [habs _ (by omega) (by omega)]

/-- The rows or columns of a strip that lies in the frame are all taken. -/
theorem mem_stripClip {start : ℤ} {count limit k : ℕ} (hstart : 0 ≤ start)
    (hend : start + count ≤ limit) (hlimit : limit < 2 ^ 30) :
    k ∈ stripClip start count limit ↔ k < count := by
  unfold stripClip
  rw [List.mem_filter, List.mem_range]
  constructor
  · exact And.left
  · intro hk
    refine ⟨hk, decide_eq_true ?_⟩
    rw [asI32_of_lt (by omega), asI32_of_lt (by omega), wrapI32_of_mem (by omega) (by omega)]
    omega

/-- A strip that lies in the frame is extracted with all its pixels. -/
theorem extractStripPixels_spec {width height : ℕ} (f : Frame width height) {x y : ℤ} {w h : ℕ}
    (hx : 0 ≤ x) (hxw : x + w ≤ width) (hy : 0 ≤ y) (hyh : y + h ≤ height)
    (hwidth : width < 2 ^ 30) (hheight : height < 2 ^ 30) :
    ∃ out, extractStripPixels f.pixels width height f.stride x y w h = some out ∧
      out.length = w * h * 4 ∧
      ∀ i < w, ∀ j < h, chunk 4 (j * w + i) out = f.pixel (x + i).toNat (y + j).toNat := by
  have harea : w * h * 4 < 2 ^ 32 := by
    have hle : w * h ≤ width * height := Nat.mul_le_mul (by omega) (by omega)
    have hframe := f.area_lt
    omega
  have hbytes : asU32 (asU32 (w * h) * 4) = w * h * 4 := by
    rw [asU32_of_lt (by omega : w * h < 2 ^ 32), asU32_of_lt harea]
  -- Where the pixels go: row after row of the strip.
  have hdst : ∀ r ∈ stripClip y h height, ∀ c ∈ stripClip x w width,
      asU32 (asU32 (asU32 (r * w) + c) * 4) = (r * w + c) * 4 ∧
        (r * w + c + 1) * 4 ≤ (List.replicate (asU32 (asU32 (w * h) * 4)) (0 : UInt8)).length := by
    intro r hr c hc
    rw [mem_stripClip hy hyh hheight] at hr
    rw [mem_stripClip hx hxw hwidth] at hc
    have hplace := pixel_le hc hr
    rw [List.length_replicate, hbytes, asU32_of_lt (by omega : r * w < 2 ^ 32),
      asU32_of_lt (by omega : r * w + c < 2 ^ 32), asU32_of_lt (by omega)]
    exact ⟨rfl, hplace⟩
  -- Where they come from: the strip lies in the frame, so nothing wraps.
  have hsrc : ∀ r ∈ stripClip y h height, ∀ c ∈ stripClip x w width,
      asU32 (asU32 ((wrapI32 (y + asI32 r)).toNat * f.stride) +
        asU32 ((wrapI32 (x + asI32 c)).toNat * 4)) + 4 ≤ f.pixels.length ∧
      (f.pixels.drop (asU32 (asU32 ((wrapI32 (y + asI32 r)).toNat * f.stride) +
        asU32 ((wrapI32 (x + asI32 c)).toNat * 4)))).take 4 =
        f.pixel (x + ((r * w + c) % w : ℕ)).toNat (y + ((r * w + c) / w : ℕ)).toNat := by
    intro r hr c hc
    rw [mem_stripClip hy hyh hheight] at hr
    rw [mem_stripClip hx hxw hwidth] at hc
    rw [asI32_of_lt (by omega : r < 2 ^ 31), asI32_of_lt (by omega : c < 2 ^ 31),
      wrapI32_of_mem (by omega : -2 ^ 31 ≤ y + r) (by omega),
      wrapI32_of_mem (by omega : -2 ^ 31 ≤ x + c) (by omega), pixel_mod hc, piece_div hc]
    obtain ⟨hoff, hend⟩ := f.offset_eq (by omega : (x + c).toNat < width)
      (by omega : (y + r).toNat < height)
    rw [hoff]
    exact ⟨hend, rfl⟩
  obtain ⟨out, hcopy, hfilled⟩ := copyRect_fills
    (fun j => f.pixel (x + (j % w : ℕ)).toNat (y + (j / w : ℕ)).toNat) _ hdst hsrc
  refine ⟨out, hcopy, ?_, ?_⟩
  · rw [hfilled.length_eq, List.length_replicate, hbytes]
  · intro i hi j hj
    have hpix := hfilled.filled (j * w + i) ⟨j, (mem_stripClip hy hyh hheight).mpr hj, i,
      (mem_stripClip hx hxw hwidth).mpr hi, rfl⟩
    rwa [pixel_mod hi, piece_div hi] at hpix

/-- What `detect` returns for a displacement that is not zero. -/
theorem blitResult_eq (pixels : List UInt8) (width height stride : ℕ) {rx ry rw rh : ℕ} {su sv : ℤ}
    (hx : rx + rw < 2 ^ 30) (hy : ry + rh < 2 ^ 30) (hrw : 0 < rw) (hrh : 0 < rh)
    (hsu : |su| ≤ scrollMaxSmallShift) (hsv : |sv| ≤ scrollMaxSmallShift)
    (hne : ¬(su = 0 ∧ sv = 0)) :
    blitResult pixels width height stride rx ry rw rh su sv =
      let c := BlitCommand.exact rx ry rw rh (dominantShift su sv).1 (dominantShift su sv).2
      (extractStripPixels pixels width height stride c.stripOrigin.1 c.stripOrigin.2 c.stripW
        c.stripH).map fun strip => some ⟨c.truncate, strip⟩ := by
  obtain ⟨haxis, hdx, hdy, hzero⟩ := dominantShift_spec hsu hsv
  rw [← hzero] at hne
  unfold blitResult
  generalize dominantShift su sv = d at *
  obtain ⟨dx, dy⟩ := d
  dsimp only at *
  rw [if_neg hne, computeStrip_eq hx hy hdx hdy]
  dsimp only
  -- A shift that is not zero exposes a strip that is not empty.
  have hstrip : ¬((BlitCommand.exact rx ry rw rh dx dy).stripW = 0 ∨
      (BlitCommand.exact rx ry rw rh dx dy).stripH = 0) := by
    dsimp only [BlitCommand.exact]
    split <;> omega
  rw [if_neg hstrip, Option.map_eq_bind]
  rfl

/-! ## The receiver -/

/-- What a screen shows at each place. -/
abbrev Screen := ℤ → ℤ → List UInt8

namespace BlitCommand

/-- A place in the region of a command. -/
def InRegion (c : BlitCommand) (x y : ℤ) : Prop :=
  (c.regionX ≤ x ∧ x < c.regionX + c.regionW) ∧ c.regionY ≤ y ∧ y < c.regionY + c.regionH

/-- A place in the strip of a command. -/
def InStrip (c : BlitCommand) (x y : ℤ) : Prop :=
  (c.stripOrigin.1 ≤ x ∧ x < c.stripOrigin.1 + c.stripW) ∧
    c.stripOrigin.2 ≤ y ∧ y < c.stripOrigin.2 + c.stripH

/-- Whether a pixel is in the region can be decided. -/
instance (c : BlitCommand) (x y : ℤ) : Decidable (c.InRegion x y) :=
  inferInstanceAs (Decidable (_ ∧ _))

/-- Whether it is in the strip can be decided. -/
instance (c : BlitCommand) (x y : ℤ) : Decidable (c.InStrip x y) :=
  inferInstanceAs (Decidable (_ ∧ _))

/-- The region is copied to where it is moved. -/
def blit (c : BlitCommand) (s : Screen) : Screen := fun x y =>
  if c.InRegion (x - c.dx) (y - c.dy) then s (x - c.dx) (y - c.dy) else s x y

/-- The strip is painted. -/
def paint (c : BlitCommand) (strip : List UInt8) (s : Screen) : Screen := fun x y =>
  if c.InStrip x y then
    chunk 4 ((y - c.stripOrigin.2).toNat * c.stripW + (x - c.stripOrigin.1).toNat) strip
  else s x y

end BlitCommand

/-- The command as the receiver reads it. -/
def BlitResult.received (r : BlitResult) : BlitCommand := .fromBytes r.command.toBytes

/-- The receiver blits the region and then paints the strip. -/
def BlitResult.apply (r : BlitResult) (s : Screen) : Screen :=
  r.received.paint r.exposedStrip (r.received.blit s)

/-- What a screen that shows a frame shows. -/
def Frame.screen {width height : ℕ} (f : Frame width height) : Screen :=
  fun x y => f.pixel x.toNat y.toNat

/-- The new region is the old one moved, but for what the move exposes. -/
def Scrolled {width height : ℕ} (region : DirtyRect) (prev curr : Frame width height) (dx dy : ℤ) :
    Prop :=
  ∀ x y, region.Visible width height x y → region.Visible width height (x - dx) (y - dy) →
    curr.screen x y = prev.screen (x - dx) (y - dy)

/-- A result describes the change of a region from one frame to the next. -/
structure Consistent {width height : ℕ} (region : DirtyRect) (prev curr : Frame width height)
    (r : BlitResult) : Prop where
  /-- The strip lies in the region. -/
  inside : ∀ x y, r.received.InStrip x y → region.Visible width height x y
  /-- The strip has the bytes of its pixels. -/
  length_eq : r.exposedStrip.length = r.received.stripW * r.received.stripH * 4
  /-- They are the pixels of the new frame at the place of the strip. -/
  pixels : ∀ i < r.received.stripW, ∀ j < r.received.stripH,
    chunk 4 (j * r.received.stripW + i) r.exposedStrip =
      curr.screen (r.received.stripOrigin.1 + i) (r.received.stripOrigin.2 + j)
  /-- A receiver that shows the old region shows the new one afterwards. -/
  shows : Scrolled region prev curr r.received.dx r.received.dy → ∀ s : Screen,
    (∀ x y, region.Visible width height x y → s x y = prev.screen x y) →
      ∀ x y, region.Visible width height x y → r.apply s x y = curr.screen x y

section Consistent

variable {width height : ℕ} {region : DirtyRect} (hregion : region.InRange) (hw : width < 2 ^ 30)
  (hh : height < 2 ^ 30) (hrw : 0 < regionSize region.x region.width width)
  (hrh : 0 < regionSize region.y region.height height)

include hregion hw hh hrw hrh

/-- The strip of a displacement that fits into the region is what the move exposes. -/
theorem inStrip_exact_iff {dx dy : ℤ} (haxis : dx = 0 ∨ dy = 0) (hne : ¬(dx = 0 ∧ dy = 0))
    (hdx : |dx| ≤ regionSize region.x region.width width)
    (hdy : |dy| ≤ regionSize region.y region.height height) {x y : ℤ} :
    (BlitCommand.exact (clipStart region.x) (clipStart region.y)
      (regionSize region.x region.width width) (regionSize region.y region.height height)
      dx dy).InStrip x y ↔
      region.Visible width height x y ∧ ¬region.Visible width height (x - dx) (y - dy) := by
  rw [visible_iff hregion hw hh hrw hrh, visible_iff hregion hw hh hrw hrh]
  generalize clipStart region.x = rx at *
  generalize clipStart region.y = ry at *
  generalize regionSize region.x region.width width = rw at *
  generalize regionSize region.y region.height height = rh at *
  rw [abs_le] at hdx hdy
  unfold BlitCommand.InStrip
  -- The strip is at the side that the picture moves away from.
  obtain hup | hdown | ⟨h0, hleft⟩ | ⟨h0, hright⟩ :
      dy < 0 ∨ 0 < dy ∨ dy = 0 ∧ dx < 0 ∨ dy = 0 ∧ 0 < dx := by omega
  · rw [BlitCommand.stripOrigin_up hup]
    dsimp only [BlitCommand.exact]
    rw [if_neg hup.ne, if_neg hup.ne]
    omega
  · rw [BlitCommand.stripOrigin_down hdown]
    dsimp only [BlitCommand.exact]
    rw [if_neg hdown.ne', if_neg hdown.ne']
    omega
  · rw [BlitCommand.stripOrigin_left h0 hleft]
    dsimp only [BlitCommand.exact]
    rw [if_pos h0, if_pos h0]
    omega
  · rw [BlitCommand.stripOrigin_right h0 hright]
    dsimp only [BlitCommand.exact]
    rw [if_pos h0, if_pos h0]
    omega

/-- A place in the region of the command before the casts. -/
theorem inRegion_exact_iff {dx dy x y : ℤ} :
    (BlitCommand.exact (clipStart region.x) (clipStart region.y)
      (regionSize region.x region.width width) (regionSize region.y region.height height)
      dx dy).InRegion x y ↔ region.Visible width height x y :=
  (visible_iff hregion hw hh hrw hrh).symm

omit hregion hw hh hrw hrh in
/-- A command in range is received as it was sent. -/
theorem BlitResult.received_eq {c : BlitCommand} (hc : c.InRange) (strip : List UInt8) :
    (BlitResult.mk c strip).received = c := BlitCommand.fromBytes_toBytes hc

omit hregion hw hh hrw hrh in
/-- A receiver shows the new region when the strip is what the move exposes, with the new pixels,
and the rest of the region is moved. -/
theorem apply_shows {prev curr : Frame width height} {c : BlitCommand} {strip : List UInt8}
    (hrange : c.InRange)
    (hstrip : ∀ {x y}, c.InStrip x y ↔
      region.Visible width height x y ∧ ¬region.Visible width height (x - c.dx) (y - c.dy))
    (hmoved : ∀ {x y}, region.Visible width height x y → c.InRegion x y)
    (hpix : ∀ i < c.stripW, ∀ j < c.stripH, chunk 4 (j * c.stripW + i) strip =
      curr.screen (c.stripOrigin.1 + i) (c.stripOrigin.2 + j))
    (hscrolled : Scrolled region prev curr c.dx c.dy) {s : Screen}
    (hs : ∀ x y, region.Visible width height x y → s x y = prev.screen x y) {x y : ℤ}
    (hxy : region.Visible width height x y) :
    (BlitResult.mk c strip).apply s x y = curr.screen x y := by
  unfold BlitResult.apply BlitCommand.paint
  rw [BlitResult.received_eq hrange]
  dsimp only
  split
  · next hin =>
    unfold BlitCommand.InStrip at hin
    rw [hpix _ (by omega) _ (by omega)]
    unfold Frame.screen
    congr 1 <;> omega
  · next hout =>
    -- What is not painted is moved to where it belongs.
    have hfrom : region.Visible width height (x - c.dx) (y - c.dy) := by
      by_contra hnot
      exact hout (hstrip.mpr ⟨hxy, hnot⟩)
    unfold BlitCommand.blit
    rw [if_pos (hmoved hfrom), hs _ _ hfrom, hscrolled x y hxy hfrom]

/-- A displacement that fits into the region gives a consistent result when the fields of the
command fit 16 bits. -/
theorem consistent_of_fits (prev curr : Frame width height) {dx dy : ℤ} (haxis : dx = 0 ∨ dy = 0)
    (hne : ¬(dx = 0 ∧ dy = 0)) (hdx : |dx| ≤ regionSize region.x region.width width)
    (hdy : |dy| ≤ regionSize region.y region.height height) {c : BlitCommand}
    (hc : c = .exact (clipStart region.x) (clipStart region.y)
      (regionSize region.x region.width width) (regionSize region.y region.height height) dx dy)
    (hrange : c.InRange) :
    ∃ strip, extractStripPixels curr.pixels width height curr.stride c.stripOrigin.1
      c.stripOrigin.2 c.stripW c.stripH = some strip ∧
        Consistent region prev curr ⟨c, strip⟩ := by
  have hmove : c.dx = dx ∧ c.dy = dy := by rw [hc]; exact ⟨rfl, rfl⟩
  have hstrip : ∀ {x y}, c.InStrip x y ↔
      region.Visible width height x y ∧ ¬region.Visible width height (x - c.dx) (y - c.dy) := by
    intro x y
    rw [hmove.1, hmove.2, hc]
    exact inStrip_exact_iff hregion hw hh hrw hrh haxis hne hdx hdy
  have hmoved : ∀ {x y}, region.Visible width height x y → c.InRegion x y := by
    intro x y hxy
    rw [hc]
    exact (inRegion_exact_iff hregion hw hh hrw hrh).mpr hxy
  have hsize : 0 < c.stripW ∧ 0 < c.stripH := by
    rw [hc]
    dsimp only [BlitCommand.exact]
    split <;> omega
  -- The corners of the strip lie in the frame.
  have hfirst : c.InStrip c.stripOrigin.1 c.stripOrigin.2 := by
    unfold BlitCommand.InStrip
    omega
  have hlast : c.InStrip (c.stripOrigin.1 + c.stripW - 1) (c.stripOrigin.2 + c.stripH - 1) := by
    unfold BlitCommand.InStrip
    omega
  obtain ⟨-, -, hx0, hy0⟩ := (hstrip.mp hfirst).1
  obtain ⟨-, -, hx1, hy1⟩ := (hstrip.mp hlast).1
  obtain ⟨strip, hextract, hlen, hpix⟩ := extractStripPixels_spec curr hx0.1
    (by omega : c.stripOrigin.1 + c.stripW ≤ width) hy0.1
    (by omega : c.stripOrigin.2 + c.stripH ≤ height) hw hh
  refine ⟨strip, hextract, ?_, ?_, ?_, ?_⟩ <;> rw [BlitResult.received_eq hrange]
  · intro x y hxy
    exact (hstrip.mp hxy).1
  · exact hlen
  · exact hpix
  · intro hscrolled s hs x y hxy
    exact apply_shows hrange hstrip hmoved hpix hscrolled hs hxy

end Consistent

/-! ## Frames that tell inconsistent results apart -/

/-- A frame of which the bytes of each pixel are given. -/
def Frame.ofBytes {width height : ℕ} (hsize : width * height * 4 < 2 ^ 32)
    (byte : ℕ → ℕ → ℕ → UInt8) : Frame width height where
  pixels := (List.range (width * 4 * height)).map fun k =>
    byte (k % (width * 4) / 4) (k / (width * 4)) (k % (width * 4) % 4)
  stride := width * 4
  wide := le_rfl
  size_lt := by rwa [Nat.mul_right_comm]
  length_le hheight := by
    rw [List.length_map, List.length_range, ← Nat.mul_succ, Nat.succ_eq_add_one,
      Nat.sub_add_cancel hheight]

/-- A pixel of a frame made of bytes has its four bytes. -/
theorem Frame.pixel_ofBytes {width height : ℕ} (hsize : width * height * 4 < 2 ^ 32)
    (byte : ℕ → ℕ → ℕ → UInt8) {x y : ℕ} (hx : x < width) (hy : y < height) :
    (Frame.ofBytes hsize byte).pixel x y = (List.range 4).map (byte x y) := by
  have hend : y * (width * 4) + x * 4 + 4 ≤ width * 4 * height := by
    have hrow : (y + 1) * (width * 4) ≤ height * (width * 4) :=
      Nat.mul_le_mul_right (width * 4) hy
    rw [Nat.succ_mul, Nat.mul_comm height] at hrow
    omega
  apply List.ext_getElem
  · simp only [pixel, ofBytes, stridedPixel, List.length_take, List.length_drop, List.length_map,
      List.length_range]
    omega
  · intro i hi hi'
    rw [List.length_map, List.length_range] at hi'
    simp only [pixel, ofBytes, stridedPixel, List.getElem_take, List.getElem_drop, List.getElem_map,
      List.getElem_range]
    have hbyte : x * 4 + i < width * 4 := by omega
    rw [Nat.add_assoc, pixel_mod hbyte, piece_div hbyte]
    congr 1 <;> omega

/-- A frame with other fourth bytes, which phase correlation does not look at. -/
def Frame.withAlpha {width height : ℕ} (f : Frame width height)
    (hsize : width * height * 4 < 2 ^ 32) (alpha : ℤ → ℤ → UInt8) : Frame width height :=
  .ofBytes hsize fun x y i => if i = 3 then alpha x y else (f.pixel x y).getD i 0

section WithAlpha

variable {width height : ℕ} (f : Frame width height) (hsize : width * height * 4 < 2 ^ 32)
  (alpha : ℤ → ℤ → UInt8)

/-- Its pixels. -/
theorem Frame.pixel_withAlpha {x y : ℕ} (hx : x < width) (hy : y < height) :
    (f.withAlpha hsize alpha).pixel x y =
      [(f.pixel x y).getD 0 0, (f.pixel x y).getD 1 0, (f.pixel x y).getD 2 0, alpha x y] :=
  Frame.pixel_ofBytes hsize _ hx hy

/-- What a screen shows of it. -/
theorem Frame.screen_withAlpha {region : DirtyRect} {x y : ℤ}
    (h : region.Visible width height x y) :
    (f.withAlpha hsize alpha).screen x y =
      [(f.screen x y).getD 0 0, (f.screen x y).getD 1 0, (f.screen x y).getD 2 0, alpha x y] := by
  obtain ⟨-, -, hx, hy⟩ := h
  rw [screen, pixel_withAlpha f hsize alpha (by omega) (by omega), Int.toNat_of_nonneg hx.1,
    Int.toNat_of_nonneg hy.1]
  rfl

/-- Its luma is the same. -/
theorem HasLuma.withAlpha {value : ℕ → ℕ → ℕ} (h : HasLuma f value) :
    HasLuma (f.withAlpha hsize alpha) value := by
  intro x hx y hy
  rw [← h x hx y hy, f.pixel_withAlpha hsize alpha hx hy]
  have hlen : (f.pixel x y).length = 4 := by
    obtain ⟨hoff, hend⟩ := f.offset_eq hx hy
    unfold Frame.pixel stridedPixel
    rw [List.length_take, List.length_drop]
    omega
  -- A pixel has four bytes, of which the luma reads three.
  obtain ⟨b, g, r, a, hpix⟩ := List.length_eq_four.mp hlen
  rw [hpix]
  rfl

/-- So phase correlation finds the same displacement. -/
theorem ScrollDetector.Finds.withAlpha {cos sin : Float32 → Float32} {region : DirtyRect}
    {prev curr : Frame width height} {su sv : ℤ} (h : Finds cos sin region prev curr su sv)
    (old new : ℤ → ℤ → UInt8) :
    Finds cos sin region (prev.withAlpha hsize old) (curr.withAlpha hsize new) su sv := by
  have hsame : ∀ (f : Frame width height) (alpha : ℤ → ℤ → UInt8),
      computeLumaSmall (f.withAlpha hsize alpha).pixels width height
        (f.withAlpha hsize alpha).stride = computeLumaSmall f.pixels width height f.stride := by
    intro f alpha
    obtain ⟨value, hvalue⟩ := exists_hasLuma f
    rw [computeLumaSmall_eq hvalue, computeLumaSmall_eq (hvalue.withAlpha f hsize alpha)]
  unfold Finds
  rw [hsame, hsame]
  exact h

end WithAlpha

section Necessary

variable {width height : ℕ} {region : DirtyRect} {c : BlitCommand} (hrange : c.InRange)
  {prev curr : Frame width height} (hscrolled : Scrolled region prev curr c.dx c.dy)
  (hsize : width * height * 4 < 2 ^ 32)
  (hall : ∀ old new : ℤ → ℤ → UInt8, ∃ strip,
    Consistent region (prev.withAlpha hsize old) (curr.withAlpha hsize new) ⟨c, strip⟩)

include hrange

/-- What is not painted is moved or left as it is. -/
theorem apply_of_not_inStrip {strip : List UInt8} {s : Screen} {x y : ℤ} (hout : ¬c.InStrip x y) :
    (BlitResult.mk c strip).apply s x y =
      if c.InRegion (x - c.dx) (y - c.dy) then s (x - c.dx) (y - c.dy) else s x y := by
  unfold BlitResult.apply BlitCommand.paint BlitCommand.blit
  rw [BlitResult.received_eq hrange]
  exact if_neg hout

include hscrolled hall

/-- What is shown of the fourth bytes after a result for a pair of frames that scroll. -/
theorem apply_withAlpha (old new : ℤ → ℤ → UInt8)
    (hmoved : ∀ x y, region.Visible width height x y →
      region.Visible width height (x - c.dx) (y - c.dy) → new x y = old (x - c.dx) (y - c.dy))
    {x y : ℤ} (hxy : region.Visible width height x y) (hout : ¬c.InStrip x y) :
    (if c.InRegion (x - c.dx) (y - c.dy) then old (x - c.dx) (y - c.dy) else old x y) =
      new x y := by
  obtain ⟨strip, hcons⟩ := hall old new
  have hscrolled' : Scrolled region (prev.withAlpha hsize old) (curr.withAlpha hsize new) c.dx
      c.dy := by
    intro x y hxy hfrom
    rw [Frame.screen_withAlpha _ hsize new hxy, Frame.screen_withAlpha _ hsize old hfrom,
      hscrolled x y hxy hfrom, hmoved x y hxy hfrom]
  have hshows := hcons.shows
  rw [BlitResult.received_eq hrange] at hshows
  -- A screen that shows the old frame, with its fourth bytes outside of the region as well.
  have happly := hshows hscrolled' (fun x y =>
    [(prev.screen x y).getD 0 0, (prev.screen x y).getD 1 0, (prev.screen x y).getD 2 0, old x y])
    (fun x y hxy => (Frame.screen_withAlpha _ hsize old hxy).symm) x y hxy
  rw [apply_of_not_inStrip hrange hout, Frame.screen_withAlpha _ hsize new hxy] at happly
  have hfourth := congrArg (fun pixel => pixel.getD 3 0) happly
  by_cases hin : c.InRegion (x - c.dx) (y - c.dy)
  · rw [if_pos hin] at hfourth ⊢
    exact hfourth
  · rw [if_neg hin] at hfourth ⊢
    exact hfourth

/-- What the move exposes is painted: else a pixel that is new there would not be shown. -/
theorem inStrip_of_exposed {x y : ℤ} (hxy : region.Visible width height x y)
    (hfrom : ¬region.Visible width height (x - c.dx) (y - c.dy)) : c.InStrip x y := by
  by_contra hout
  have hshown := apply_withAlpha hrange hscrolled hsize hall (fun _ _ => 0)
    (fun a b => if a = x ∧ b = y then 1 else 0) ?_ hxy hout
  · simp at hshown
  · intro a b hab hfrom'
    rw [if_neg]
    rintro ⟨rfl, rfl⟩
    exact hfrom hfrom'

/-- What is moved inside the region and not painted is in the region of the command: else the pixel
that was there before would still be shown. -/
theorem inRegion_of_moved (hne : ¬(c.dx = 0 ∧ c.dy = 0)) {x y : ℤ}
    (hxy : region.Visible width height x y) (hout : ¬c.InStrip x y) :
    c.InRegion (x - c.dx) (y - c.dy) := by
  by_contra hnot
  have hshown := apply_withAlpha hrange hscrolled hsize hall
    (fun a b => if a = x ∧ b = y then 1 else 0)
    (fun a b => if a - c.dx = x ∧ b - c.dy = y then 1 else 0) (fun _ _ _ _ => rfl) hxy hout
  rw [if_neg hnot, if_pos ⟨rfl, rfl⟩, if_neg (by omega)] at hshown
  exact absurd hshown (by decide)

end Necessary

/-- The cast of a number to `i16` keeps it when it fits, and makes it smaller when it does not. -/
theorem wrapI16_natCast (n : ℕ) : n < 2 ^ 15 ∧ wrapI16 n = n ∨ wrapI16 n < n := by
  unfold wrapI16
  rw [Int.bmod_def]
  split <;> omega

/-- The cast of a number to `u16` takes away a multiple of `2^16`. -/
theorem asU16_cases (n : ℕ) : n < 2 ^ 16 ∧ asU16 n = n ∨ asU16 n + 2 ^ 16 ≤ n := by
  unfold asU16
  omega

/-- A small displacement is left as it is. -/
theorem wrapI16_of_abs_le {z : ℤ} (h : |z| ≤ 128) : wrapI16 z = z := by
  rw [abs_le] at h
  exact Int.bmod_eq_of_le_mul_two (by omega) (by omega)

/-- So is its size. -/
theorem asU16_natAbs {z : ℤ} (h : |z| ≤ 128) : asU16 z.natAbs = z.natAbs := by
  rw [abs_le] at h
  exact Nat.mod_eq_of_lt (by omega)

/-- The fields of the command for a region fit 16 bits, and the displacement fits the region. -/
structure ScrollFits (rx ry rw rh : ℕ) (dx dy : ℤ) : Prop where
  /-- The displacement to the right. -/
  dx_le : |dx| ≤ rw
  /-- The displacement down. -/
  dy_le : |dy| ≤ rh
  /-- The left edge. -/
  rx_lt : rx < 2 ^ 15
  /-- The upper edge. -/
  ry_lt : ry < 2 ^ 15
  /-- The width. -/
  rw_lt : rw < 2 ^ 16
  /-- The height. -/
  rh_lt : rh < 2 ^ 16

/-- The fields of a command after the casts: the displacement stays, the edges and sizes that do not
fit become smaller. -/
theorem fields_truncate_exact {rx ry rw rh : ℕ} {dx dy : ℤ} (hdx : |dx| ≤ 128) (hdy : |dy| ≤ 128)
    {c : BlitCommand} (hc : c = (BlitCommand.exact rx ry rw rh dx dy).truncate) :
    (c.dx = dx ∧ c.dy = dy) ∧ (rx < 2 ^ 15 ∧ c.regionX = rx ∨ c.regionX < rx) ∧
      (ry < 2 ^ 15 ∧ c.regionY = ry ∨ c.regionY < ry) ∧
      (rw < 2 ^ 16 ∧ c.regionW = rw ∨ c.regionW + 2 ^ 16 ≤ rw) ∧
      (rh < 2 ^ 16 ∧ c.regionH = rh ∨ c.regionH + 2 ^ 16 ≤ rh) ∧
      (dy = 0 → c.stripW = dx.natAbs ∧ c.stripH = c.regionH) ∧
      (dy ≠ 0 → c.stripW = c.regionW ∧ c.stripH = dy.natAbs) := by
  rw [hc, BlitCommand.truncate, BlitCommand.exact]
  dsimp only
  refine ⟨⟨wrapI16_of_abs_le hdx, wrapI16_of_abs_le hdy⟩, wrapI16_natCast rx, wrapI16_natCast ry,
    asU16_cases rw, asU16_cases rh, fun h => ?_, fun h => ?_⟩
  · rw [if_pos h, if_pos h]
    exact ⟨asU16_natAbs hdx, rfl⟩
  · rw [if_neg h, if_neg h]
    exact ⟨rfl, asU16_natAbs hdy⟩

/-- What is painted covers what the move exposes and stays in the region, and the rest is moved.
This leaves no room for a field that does not fit or a displacement beyond the region. -/
theorem scrollFits_of_covers {rx ry rw rh : ℕ} {dx dy : ℤ} (haxis : dx = 0 ∨ dy = 0)
    (hne : ¬(dx = 0 ∧ dy = 0)) (hdx : |dx| ≤ 128) (hdy : |dy| ≤ 128) (hrw : 0 < rw) (hrh : 0 < rh)
    {c : BlitCommand} (hc : c = (BlitCommand.exact rx ry rw rh dx dy).truncate)
    (hexposed : ∀ x y : ℤ, ((rx ≤ x ∧ x < rx + rw) ∧ ry ≤ y ∧ y < ry + rh) →
      ¬((rx ≤ x - dx ∧ x - dx < rx + rw) ∧ ry ≤ y - dy ∧ y - dy < ry + rh) → c.InStrip x y)
    (hinside : ∀ x y : ℤ, c.InStrip x y → (rx ≤ x ∧ x < rx + rw) ∧ ry ≤ y ∧ y < ry + rh)
    (hmoved : ∀ x y : ℤ, ((rx ≤ x ∧ x < rx + rw) ∧ ry ≤ y ∧ y < ry + rh) → ¬c.InStrip x y →
      c.InRegion (x - dx) (y - dy)) : ScrollFits rx ry rw rh dx dy := by
  obtain ⟨⟨hcdx, hcdy⟩, hrx, hry, hrw', hrh', hflat, hsteep⟩ := fields_truncate_exact hdx hdy hc
  rw [abs_le] at hdx hdy
  unfold BlitCommand.InStrip BlitCommand.InRegion at *
  have key : (-rw ≤ dx ∧ dx ≤ rw) ∧ (-rh ≤ dy ∧ dy ≤ rh) ∧ rx < 2 ^ 15 ∧ ry < 2 ^ 15 ∧
      rw < 2 ^ 16 ∧ rh < 2 ^ 16 := by
    -- The corners of what is exposed are painted, and those of what is painted lie in the region.
    obtain hup | hdown | ⟨h0, hleft⟩ | ⟨h0, hright⟩ :
        dy < 0 ∨ 0 < dy ∨ dy = 0 ∧ dx < 0 ∨ dy = 0 ∧ 0 < dx := by omega
    · -- up
      rw [BlitCommand.stripOrigin_up (by omega)] at *
      obtain ⟨hcsw, hcsh⟩ := hsteep hup.ne
      dsimp only at *
      have h1 := hexposed rx (ry + rh - 1) (by omega) (by omega)
      have h2 := hexposed (rx + rw - 1) (ry + rh - 1) (by omega) (by omega)
      have h3 := hinside c.regionX (c.regionY + c.regionH + c.dy) (by omega)
      omega
    · -- down: a height that does not fit would leave the lowest row where it is
      rw [BlitCommand.stripOrigin_down (by omega)] at *
      obtain ⟨hcsw, hcsh⟩ := hsteep hdown.ne'
      dsimp only at *
      have h1 := hexposed rx ry (by omega) (by omega)
      have h2 := hexposed (rx + rw - 1) ry (by omega) (by omega)
      have h3 := hinside c.regionX c.regionY (by omega)
      have h4 := hinside c.regionX (c.regionY + c.stripH - 1) (by omega)
      have h5 : rh < 2 ^ 16 := by
        by_contra hlarge
        have := hmoved rx (ry + rh - 1) (by omega) (by omega)
        omega
      omega
    · -- to the left
      rw [BlitCommand.stripOrigin_left (by omega) (by omega)] at *
      obtain ⟨hcsw, hcsh⟩ := hflat h0
      dsimp only at *
      have h1 := hexposed (rx + rw - 1) ry (by omega) (by omega)
      have h2 := hexposed (rx + rw - 1) (ry + rh - 1) (by omega) (by omega)
      have h3 := hinside (c.regionX + c.regionW + c.dx) c.regionY (by omega)
      omega
    · -- to the right, as down
      rw [BlitCommand.stripOrigin_right (by omega) (by omega)] at *
      obtain ⟨hcsw, hcsh⟩ := hflat h0
      dsimp only at *
      have h1 := hexposed rx ry (by omega) (by omega)
      have h2 := hexposed rx (ry + rh - 1) (by omega) (by omega)
      have h3 := hinside c.regionX c.regionY (by omega)
      have h4 := hinside (c.regionX + c.stripW - 1) c.regionY (by omega)
      have h5 : rw < 2 ^ 16 := by
        by_contra hlarge
        have := hmoved (rx + rw - 1) ry (by omega) (by omega)
        omega
      omega
  obtain ⟨hkx, hky, hrest⟩ := key
  exact ⟨abs_le.mpr hkx, abs_le.mpr hky, hrest.1, hrest.2.1, hrest.2.2.1, hrest.2.2.2⟩

/-- When the result of a displacement is consistent for a pair of frames that scroll by it, whatever
their fourth bytes are, the displacement and the region fit. -/
theorem scrollFits_of_consistent {width height : ℕ} {region : DirtyRect} (hregion : region.InRange)
    (hw : width < 2 ^ 30) (hh : height < 2 ^ 30)
    (hrw : 0 < regionSize region.x region.width width)
    (hrh : 0 < regionSize region.y region.height height) (hsize : width * height * 4 < 2 ^ 32)
    {dx dy : ℤ} (haxis : dx = 0 ∨ dy = 0) (hne : ¬(dx = 0 ∧ dy = 0)) (hdx : |dx| ≤ 128)
    (hdy : |dy| ≤ 128) {c : BlitCommand}
    (hc : c = .exact (clipStart region.x) (clipStart region.y)
      (regionSize region.x region.width width) (regionSize region.y region.height height) dx dy)
    {prev curr : Frame width height} (hscrolled : Scrolled region prev curr dx dy)
    (hcons : ∀ old new : ℤ → ℤ → UInt8, ∃ strip, Consistent region (prev.withAlpha hsize old)
      (curr.withAlpha hsize new) ⟨c.truncate, strip⟩) :
    ScrollFits (clipStart region.x) (clipStart region.y)
      (regionSize region.x region.width width) (regionSize region.y region.height height) dx
      dy := by
  have hvisible := fun x y : ℤ => visible_iff (x := x) (y := y) hregion hw hh hrw hrh
  have hmove : c.truncate.dx = dx ∧ c.truncate.dy = dy := by
    rw [hc]
    exact ⟨wrapI16_of_abs_le hdx, wrapI16_of_abs_le hdy⟩
  have hscrolled' : Scrolled region prev curr c.truncate.dx c.truncate.dy := by
    rwa [hmove.1, hmove.2]
  -- What is exposed must be sent, and nothing else may be.
  refine scrollFits_of_covers haxis hne hdx hdy hrw hrh (congrArg _ hc) ?_ ?_ ?_
  · intro x y hxy hfrom
    apply inStrip_of_exposed c.inRange_truncate hscrolled' hsize hcons ((hvisible x y).mpr hxy)
    rw [hmove.1, hmove.2, hvisible]
    exact hfrom
  · intro x y hxy
    obtain ⟨strip, hstrip⟩ := hcons (fun _ _ => 0) fun _ _ => 0
    have hinside := hstrip.inside x y
    rw [BlitResult.received_eq c.inRange_truncate] at hinside
    exact (hvisible x y).mp (hinside hxy)
  · intro x y hxy hout
    have hmoved := inRegion_of_moved c.inRange_truncate hscrolled' hsize hcons
      (by rwa [hmove.1, hmove.2]) ((hvisible x y).mpr hxy) hout
    rwa [hmove.1, hmove.2] at hmoved

/-- The command before the casts is in range when its parts fit. -/
theorem inRange_exact {rx ry rw rh : ℕ} {dx dy : ℤ} (h : ScrollFits rx ry rw rh dx dy)
    (hdx : |dx| ≤ 128) (hdy : |dy| ≤ 128) : (BlitCommand.exact rx ry rw rh dx dy).InRange := by
  obtain ⟨-, -, hrx, hry, hrw, hrh⟩ := h
  rw [abs_le] at hdx hdy
  constructor <;> dsimp only [BlitCommand.exact] <;> (try split) <;> omega

/-! ## All results -/

/-- A frame without columns or rows has no region. -/
theorem limit_pos {pos : ℤ} {size limit : ℕ} (h : 0 < regionSize pos size limit) : 0 < limit := by
  by_contra hzero
  obtain rfl : limit = 0 := by omega
  have hnone : asI32 0 = 0 := rfl
  unfold regionSize at h
  rw [hnone] at h
  omega

section Results

variable (cos sin : Float32 → Float32)

/-- All results of `detect` for a region of frames of a size are consistent, when phase correlation
finds this displacement or none. -/
def DetectConsistent (width height : ℕ) (region : DirtyRect) (su sv : ℤ) : Prop :=
  ∀ (d : ScrollDetector) (prev curr : Frame width height), d.Saw prev →
    (∀ su' sv', ScrollDetector.Finds cos sin region prev curr su' sv' → su' = su ∧ sv' = sv) →
      ∃ r d', d.detect cos sin curr.pixels width height curr.stride region = some (r, d') ∧
        ∀ res ∈ r, Consistent region prev curr res

/-- Phase correlation finds the displacement for two frames that scroll by it. -/
def FoundScroll (width height : ℕ) (region : DirtyRect) (su sv : ℤ) : Prop :=
  ∃ prev curr : Frame width height, ScrollDetector.Finds cos sin region prev curr su sv ∧
    Scrolled region prev curr (dominantShift su sv).1 (dominantShift su sv).2

variable {cos sin}

/-- A region that is too small has no result. -/
theorem detectConsistent_of_small {width height : ℕ} {region : DirtyRect} {su sv : ℤ}
    (hsmall : regionSize region.x region.width width < scrollMinRegionPx ∨
      regionSize region.y region.height height < scrollMinRegionPx) :
    DetectConsistent cos sin width height region su sv := by
  intro d prev curr hd _
  obtain ⟨d', hdetect⟩ := ScrollDetector.detect_of_small hd hsmall
  exact ⟨none, d', hdetect, fun _ h => absurd h (by simp)⟩

section Large

variable {width height : ℕ} {region : DirtyRect} (hregion : region.InRange) (hw : width < 2 ^ 30)
  (hh : height < 2 ^ 30) (hrw : scrollMinRegionPx ≤ regionSize region.x region.width width)
  (hrh : scrollMinRegionPx ≤ regionSize region.y region.height height)
  (hxfits : clipStart region.x + regionSize region.x region.width width < 2 ^ 30)
  (hyfits : clipStart region.y + regionSize region.y region.height height < 2 ^ 30)

include hregion hw hh hrw hrh hxfits hyfits

/-- When all results are consistent, the result of a displacement that is found is so. -/
theorem DetectConsistent.exists_consistent {su sv : ℤ}
    (hall : DetectConsistent cos sin width height region su sv) {prev curr : Frame width height}
    (hfound : ScrollDetector.Finds cos sin region prev curr su sv) :
    ∃ strip, Consistent region prev curr ⟨(BlitCommand.exact (clipStart region.x)
      (clipStart region.y) (regionSize region.x region.width width)
      (regionSize region.y region.height height) (dominantShift su sv).1
      (dominantShift su sv).2).truncate, strip⟩ := by
  obtain ⟨s, hs, -⟩ := computeLumaSmall_total prev
  have hd : (ScrollDetector.mk (some s)).Saw prev := ⟨s, hs, rfl⟩
  obtain ⟨r, d', hdetect, hr⟩ := hall _ prev curr hd fun _ _ h => hfound.unique h
  -- The detector that saw the frame before finds the shift.
  obtain ⟨shift, d'', hshift, hlarge⟩ :=
    ScrollDetector.detect_of_large hd hregion hw hh hrw hrh
  obtain rfl := (hshift su sv).mpr hfound
  obtain ⟨hsu, hsv, hmoves⟩ := hfound.mem_shifts
  rw [hlarge] at hdetect
  dsimp only at hdetect
  rw [blitResult_eq _ _ _ _ hxfits hyfits (lt_of_lt_of_le (by decide) hrw)
    (lt_of_lt_of_le (by decide) hrh) hsu hsv hmoves, Option.map_map,
    Option.map_eq_some_iff] at hdetect
  obtain ⟨strip, -, hstrip⟩ := hdetect
  cases hstrip
  exact ⟨strip, hr _ rfl⟩

/-- The results of a displacement that fits are consistent. -/
theorem detectConsistent_of_fits {su sv : ℤ}
    (hfits : ScrollFits (clipStart region.x) (clipStart region.y)
      (regionSize region.x region.width width) (regionSize region.y region.height height)
      (dominantShift su sv).1 (dominantShift su sv).2) :
    DetectConsistent cos sin width height region su sv := by
  have hrw' : 0 < regionSize region.x region.width width := lt_of_lt_of_le (by decide) hrw
  have hrh' : 0 < regionSize region.y region.height height := lt_of_lt_of_le (by decide) hrh
  intro d prev curr hd honly
  obtain ⟨shift, d', hshift, hdetect⟩ :=
    ScrollDetector.detect_of_large hd hregion hw hh hrw hrh
  rw [hdetect]
  rcases shift with _ | ⟨su', sv'⟩
  · exact ⟨none, d', rfl, fun _ h => absurd h (by simp)⟩
  -- What is found is this displacement, which the search allows.
  have hfound := (hshift su' sv').mp rfl
  obtain ⟨rfl, rfl⟩ := honly su' sv' hfound
  obtain ⟨hsu, hsv, hmoves⟩ := hfound.mem_shifts
  obtain ⟨haxis, hdx, hdy, hzero⟩ := dominantShift_spec hsu hsv
  have hrange := inRange_exact hfits hdx hdy
  obtain ⟨strip, hextract, hcons⟩ := consistent_of_fits hregion hw hh hrw' hrh' prev curr haxis
    (mt hzero.mp hmoves) hfits.dx_le hfits.dy_le rfl hrange
  dsimp only
  rw [blitResult_eq _ _ _ _ hxfits hyfits hrw' hrh' hsu hsv hmoves]
  dsimp only
  rw [hextract, BlitCommand.truncate_of_inRange hrange]
  refine ⟨some ⟨_, strip⟩, d', rfl, ?_⟩
  rintro res h
  cases h
  exact hcons

/-- When the results of a displacement are consistent that is found for two frames that scroll by
it, it fits. -/
theorem DetectConsistent.scrollFits {su sv : ℤ} (hsize : width * height * 4 < 2 ^ 32)
    (hall : DetectConsistent cos sin width height region su sv)
    (hfound : FoundScroll cos sin width height region su sv) :
    ScrollFits (clipStart region.x) (clipStart region.y)
      (regionSize region.x region.width width) (regionSize region.y region.height height)
      (dominantShift su sv).1 (dominantShift su sv).2 := by
  obtain ⟨prev, curr, hfinds, hscrolled⟩ := hfound
  obtain ⟨hsu, hsv, hmoves⟩ := hfinds.mem_shifts
  obtain ⟨haxis, hdx, hdy, hzero⟩ := dominantShift_spec hsu hsv
  exact scrollFits_of_consistent hregion hw hh (lt_of_lt_of_le (by decide) hrw)
    (lt_of_lt_of_le (by decide) hrh) hsize haxis (mt hzero.mp hmoves) hdx hdy rfl hscrolled
    fun old new => hall.exists_consistent hregion hw hh hrw hrh hxfits hyfits
      (hfinds.withAlpha hsize old new)

end Large

variable (cos sin) in
/-- The results with a displacement have the strip inside the region, at the place that the receiver
computes, with the pixels of the new frame, and make the receiver show the new region, when the
region is too small, or the displacement fits into the region and the region into 16 bits. For a
displacement that is found for two frames that scroll by it, they do so only then. -/
theorem detect_consistent_iff (width height : ℕ) (hsize : width * height * 4 < 2 ^ 32)
    (region : DirtyRect) (hregion : region.InRange) (su sv : ℤ) :
    let fits := regionSize region.x region.width width < scrollMinRegionPx ∨
      regionSize region.y region.height height < scrollMinRegionPx ∨
        ScrollFits (clipStart region.x) (clipStart region.y)
          (regionSize region.x region.width width) (regionSize region.y region.height height)
          (dominantShift su sv).1 (dominantShift su sv).2
    (fits → DetectConsistent cos sin width height region su sv) ∧
      (FoundScroll cos sin width height region su sv →
        (DetectConsistent cos sin width height region su sv ↔ fits)) := by
  intro fits
  -- A region below the smallest size is never reported.
  by_cases hsmall : regionSize region.x region.width width < scrollMinRegionPx ∨
      regionSize region.y region.height height < scrollMinRegionPx
  · have hcons : DetectConsistent cos sin width height region su sv :=
      detectConsistent_of_small hsmall
    exact ⟨fun _ => hcons, fun _ => iff_of_true hcons (hsmall.imp_right .inl)⟩
  obtain ⟨hrw, hrh⟩ := not_or.mp hsmall
  rw [not_lt] at hrw hrh
  have hrw' : 0 < regionSize region.x region.width width := lt_of_lt_of_le (by decide) hrw
  have hrh' : 0 < regionSize region.y region.height height := lt_of_lt_of_le (by decide) hrh
  obtain ⟨hw, hh⟩ :=
    (Frame.ofBytes hsize fun _ _ _ => 0).sides_lt (limit_pos hrw') (limit_pos hrh')
  obtain ⟨-, hx1⟩ := regionSize_spec hregion.x_mem.1 hregion.x_mem.2 hregion.width_lt hw hrw'
  obtain ⟨-, hy1⟩ := regionSize_spec hregion.y_mem.1 hregion.y_mem.2 hregion.height_lt hh hrh'
  have hxfits : clipStart region.x + regionSize region.x region.width width < 2 ^ 30 := by omega
  have hyfits : clipStart region.y + regionSize region.y region.height height < 2 ^ 30 := by omega
  have hmpr : fits → DetectConsistent cos sin width height region su sv := by
    rintro (h | h | hfits)
    · exact absurd hrw (not_le.mpr h)
    · exact absurd hrh (not_le.mpr h)
    · exact detectConsistent_of_fits hregion hw hh hrw hrh hxfits hyfits hfits
  refine ⟨hmpr, fun hfound => ⟨fun hall => .inr (.inr ?_), hmpr⟩⟩
  exact hall.scrollFits hregion hw hh hrw hrh hxfits hyfits hsize hfound

end Results

/-! ## A displacement beyond the region -/

/-- The cosine and the sine in `f32` at the angles of a transform of 32 values: `π` and `-π` over
the powers of two up to sixteen. -/
def halfTurns (ang : Float32) : Float32 × Float32 :=
  let (cos, sin) : Float32 × Float32 :=
    match ang.abs.toBits with
    | 0x40490FDB => (.ofBits 0xBF800000, .ofBits 0xB3BBBD2E)
    | 0x3FC90FDB => (.ofBits 0xB33BBD2E, .ofBits 0x3F800000)
    | 0x3F490FDB => (.ofBits 0x3F3504F3, .ofBits 0x3F3504F3)
    | 0x3EC90FDB => (.ofBits 0x3F6C835E, .ofBits 0x3EC3EF16)
    | 0x3E490FDB => (.ofBits 0x3F7B14BE, .ofBits 0x3E47C5C2)
    | _ => (1, 0)
  (cos, if ang < 0 then -sin else sin)

/-- The cosine. -/
def halfTurnsCos (ang : Float32) : Float32 := (halfTurns ang).1

/-- The sine. -/
def halfTurnsSin (ang : Float32) : Float32 := (halfTurns ang).2

/-- A frame that is black but for gray blocks at its left edge. -/
def leftBlocks (grays : List UInt8) : Frame 64 64 :=
  .ofBytes (by decide) fun x y _ => if x < 8 then grays.getD (y / 8) 0 else 0

/-- The luma of its blocks, row by row. -/
def leftPatch (grays : List UInt8) : List UInt8 :=
  grays.flatMap fun gray => gray :: List.replicate 7 0

/-- The luma of such a frame. -/
def leftSmall (grays : List UInt8) : SmallFrame := ⟨leftPatch grays, 8, 8, 64, 64⟩

/-- The lumas of such a frame are its grays on the left and zero elsewhere. -/
theorem hasLuma_leftBlocks (grays : List UInt8) :
    HasLuma (leftBlocks grays) fun x y => (if x < 8 then grays.getD (y / 8) 0 else 0).toNat := by
  intro x hx y hy
  unfold leftBlocks
  rw [Frame.pixel_ofBytes _ _ hx hy]
  dsimp only
  generalize (if x < 8 then grays.getD (y / 8) 0 else 0) = gray
  show some ((2 * gray.toNat + 5 * gray.toNat + gray.toNat) / 8) = some gray.toNat
  congr 1
  omega

/-- The gray of the blocks in the old frame. -/
def oldGrays : List UInt8 := [0, 152, 0, 0, 248, 0, 0, 240]

/-- The gray of the blocks in the new frame. -/
def newGrays : List UInt8 := [0, 0, 0, 0, 200, 0, 0, 184]

/-- Along the rows phase correlation finds a shift by nine of the eight blocks. -/
theorem correlate1d_rows :
    (correlate1d halfTurnsCos halfTurnsSin [0, 19, 0, 0, 31, 0, 0, 30] [0, 0, 0, 0, 25, 0, 0, 23]
      scrollMaxSmallShift).map Prod.fst = some 9 := by
  decide +kernel

/-- Along the columns it finds nothing. -/
theorem correlate1d_cols :
    (correlate1d halfTurnsCos halfTurnsSin [80, 0, 0, 0, 0, 0, 0, 0] [48, 0, 0, 0, 0, 0, 0, 0]
      scrollMaxSmallShift).isNone = true := by
  decide +kernel

/-- So it finds a displacement by nine blocks. -/
theorem phaseCorrelate_leftPatch :
    phaseCorrelate halfTurnsCos halfTurnsSin (leftPatch oldGrays) (leftPatch newGrays) 8 8
      scrollMaxSmallShift = some (some (0, 9)) := by
  have hprevV : projectCols (leftPatch oldGrays) 8 8 = some [0, 19, 0, 0, 31, 0, 0, 30] := by
    decide +kernel
  have hcurrV : projectCols (leftPatch newGrays) 8 8 = some [0, 0, 0, 0, 25, 0, 0, 23] := by
    decide +kernel
  have hprevH : projectRows (leftPatch oldGrays) 8 8 = some [80, 0, 0, 0, 0, 0, 0, 0] := by
    decide +kernel
  have hcurrH : projectRows (leftPatch newGrays) 8 8 = some [48, 0, 0, 0, 0, 0, 0, 0] := by
    decide +kernel
  obtain ⟨⟨d, peak⟩, hrows, hd⟩ := Option.map_eq_some_iff.mp correlate1d_rows
  obtain rfl : d = 9 := hd
  have hcols := Option.isNone_iff_eq_none.mp correlate1d_cols
  unfold phaseCorrelate
  rw [hprevV, hcurrV, hprevH, hcurrH]
  simp only [Option.bind_eq_bind, Option.bind_some, hrows, hcols]
  rfl

/-- The luma of the frames with such blocks. -/
theorem computeLumaSmall_leftBlocks {grays : List UInt8}
    (hgrays : grays = oldGrays ∨ grays = newGrays) :
    computeLumaSmall (leftBlocks grays).pixels 64 64 (leftBlocks grays).stride =
      some (leftSmall grays) := by
  have hfill : fillLuma 8 8 (fun sx sy => some (blockMean 64 64
      (fun x y => (if x < 8 then grays.getD (y / 8) 0 else 0).toNat) sx sy)) =
        some (leftPatch grays) := by
    rcases hgrays with rfl | rfl
    · decide +kernel
    · decide +kernel
  have hblocks : (64 + 7) / 8 = 8 := rfl
  rw [computeLumaSmall_eq (hasLuma_leftBlocks grays), hblocks, hfill, Option.map_some, leftSmall]

/-- The whole of a small frame is the region. -/
def wholeFrame : DirtyRect := ⟨0, 0, 64, 64⟩

/-- The displacement by nine blocks is found, and the frames scroll by it, since nothing of a region
of eight blocks is left. -/
theorem foundScroll_nine : FoundScroll halfTurnsCos halfTurnsSin 64 64 wholeFrame 0 9 := by
  refine ⟨leftBlocks oldGrays, leftBlocks newGrays,
    ⟨_, _, computeLumaSmall_leftBlocks (.inl rfl), computeLumaSmall_leftBlocks (.inr rfl), ?_⟩, ?_⟩
  -- The patches of the two frames are those that were computed.
  · have hold : extractRoi (leftSmall oldGrays).luma (leftSmall oldGrays).w (0 / 8) (0 / 8) 8 8 =
        some (leftPatch oldGrays) := by decide +kernel
    have hnew : extractRoi (leftSmall newGrays).luma (leftSmall newGrays).w (0 / 8) (0 / 8) 8 8 =
        some (leftPatch newGrays) := by decide +kernel
    have hstart : clipStart wholeFrame.x = 0 ∧ clipStart wholeFrame.y = 0 := by decide
    have hcount : blockCount 0 (regionSize wholeFrame.x wholeFrame.width 64)
          (leftSmall oldGrays).w (leftSmall newGrays).w = 8 ∧
        blockCount 0 (regionSize wholeFrame.y wholeFrame.height 64)
          (leftSmall oldGrays).h (leftSmall newGrays).h = 8 := by decide
    rw [hstart.1, hstart.2, hcount.1, hcount.2, ScrollDetector.patchShift_eq hold hnew]
    exact phaseCorrelate_leftPatch
  -- A move by 72 rows keeps nothing of the 64 in view.
  · intro x y hxy hfrom
    exfalso
    have hdy : (dominantShift 0 9).2 = -72 := rfl
    obtain ⟨-, ⟨hy, -⟩, -⟩ := hxy
    obtain ⟨-, ⟨-, hend⟩, -⟩ := hfrom
    simp only [wholeFrame] at hy hend
    omega

/-- The whole of a small frame moves up by sixteen pixels, or by the 72 pixels that are found, and
only the first is consistent. -/
theorem detect_consistent_up :
    DetectConsistent halfTurnsCos halfTurnsSin 64 64 wholeFrame 0 2 ∧
      (DetectConsistent halfTurnsCos halfTurnsSin 64 64 wholeFrame 0 9 ↔
        (64 < scrollMinRegionPx ∨ 64 < scrollMinRegionPx ∨ ScrollFits 0 0 64 64 0 (-72))) := by
  have hregion : wholeFrame.InRange := by constructor <;> decide
  have htwo := detect_consistent_iff halfTurnsCos halfTurnsSin 64 64 (by decide) wholeFrame hregion
    0 2
  have hnine := detect_consistent_iff halfTurnsCos halfTurnsSin 64 64 (by decide) wholeFrame hregion
    0 9
  refine ⟨htwo.1 (.inr (.inr ?_)), hnine.2 foundScroll_nine⟩
  constructor <;> decide

/-- Phase correlation finds a displacement by 72 pixels in a region of 64, and its strip starts
above the frame. -/
theorem not_detect_consistent :
    ¬DetectConsistent halfTurnsCos halfTurnsSin 64 64 wholeFrame 0 9 := by
  intro hall
  have hregion : wholeFrame.InRange := by constructor <;> decide
  obtain ⟨prev, curr, hfinds, -⟩ := foundScroll_nine
  obtain ⟨strip, hcons⟩ := hall.exists_consistent hregion (by decide) (by decide) (by decide)
    (by decide) (by decide) (by decide) hfinds
  have hinside := hcons.inside 0 (-8)
  rw [BlitResult.received_eq (BlitCommand.inRange_truncate _)] at hinside
  exact absurd (hinside (by decide)).2.2.2.1 (by decide)

end LowBand.Platform
