import LowBand.Lib.Raster
import LowBand.Platform.PaletteTile

/-!
# The tile grid

`TileGrid` of `screen_encoder.rs` cuts a frame into tiles of 32 by 32 pixels and fills the tiles at
the right and bottom edge up with zeros. Offsets are computed in `u32`, which wraps.

`extractTile_strided` says which pixels a tile has, when the frame buffer holds the frame and its
size fits `u32`: then nothing wraps and no slice is out of bounds. `extractTile_spec` is the case of
rows without a gap between them.
-/

namespace LowBand.Platform

open Lib

/-- `TileCoord`. -/
structure TileCoord where
  /-- The column. -/
  col : ℕ
  /-- The row. -/
  row : ℕ
deriving DecidableEq

/-- `TileGrid`. -/
structure TileGrid where
  /-- The number of tile columns. -/
  cols : ℕ
  /-- The number of tile rows. -/
  rows : ℕ
  /-- The width of the frame. -/
  frameWidth : ℕ
  /-- The height of the frame. -/
  frameHeight : ℕ

namespace TileGrid

/-- `TileGrid::new`. -/
def new (frameWidth frameHeight : ℕ) : TileGrid :=
  ⟨(frameWidth + tileSizePx - 1) / tileSizePx, (frameHeight + tileSizePx - 1) / tileSizePx,
    frameWidth, frameHeight⟩

/-- The rows or columns of a tile that the loops take, from `start` until they break at `limit`. -/
def clip (start limit : ℕ) : List ℕ :=
  (List.range tileSizePx).takeWhile fun k => asU32 (start + k) < limit

/-- `extract_tile`; `none` when a slice is out of bounds. -/
def extractTile (g : TileGrid) (pixels : List UInt8) (stride : ℕ) (coord : TileCoord) :
    Option (List UInt8) :=
  let tileX := asU32 (coord.col * tileSizePx)
  let tileY := asU32 (coord.row * tileSizePx)
  copyRect (clip tileY g.frameHeight) (clip tileX g.frameWidth)
    (fun row col => row * tileSizePx * 4 + col * 4)
    (fun row col => asU32 (asU32 (tileY + row) * stride) + asU32 (asU32 (tileX + col) * 4))
    (List.replicate tileBytes 0) pixels

end TileGrid

/-- The pixel of a frame that is `width` wide. -/
def pixelAt (width : ℕ) (fb : List UInt8) (x y : ℕ) : List UInt8 := chunk 4 (y * width + x) fb

/-- The rows or columns of a tile that lie in the frame, when the tile does not reach past `u32`. -/
theorem mem_clip {start limit k : ℕ} (hstart : start + tileSizePx ≤ 2 ^ 32) :
    k ∈ TileGrid.clip start limit ↔ k < tileSizePx ∧ start + k < limit := by
  rw [TileGrid.clip, mem_takeWhile_range]
  constructor
  · rintro ⟨hk, hall⟩
    have hlt := of_decide_eq_true (hall k le_rfl)
    rw [asU32_of_lt (by omega)] at hlt
    exact ⟨hk, hlt⟩
  · rintro ⟨hk, hlt⟩
    refine ⟨hk, fun y hy => decide_eq_true ?_⟩
    rw [asU32_of_lt (by omega)]
    omega

/-- A tile of the grid starts in the frame. -/
theorem TileGrid.start_lt {n k : ℕ} (hk : k < (n + tileSizePx - 1) / tileSizePx) :
    k * tileSizePx < n := by
  rw [Nat.lt_iff_add_one_le, Nat.le_div_iff_mul_le (by decide)] at hk
  unfold tileSizePx at hk ⊢
  omega

/-- Where a tile of the grid starts, when the size of the frame fits `u32`: in the frame, whose
sides then have 30 bits, so that no coordinate of a pixel of the tile wraps. -/
structure TileStart (width height : ℕ) (coord : TileCoord) : Prop where
  /-- The tile starts left of the right edge. -/
  col_lt : coord.col * tileSizePx < width
  /-- The tile starts above the lower edge. -/
  row_lt : coord.row * tileSizePx < height
  /-- The width has 30 bits. -/
  width_lt : width < 2 ^ 30
  /-- The height has 30 bits. -/
  height_lt : height < 2 ^ 30
  /-- The first column does not wrap. -/
  asU32_col : asU32 (coord.col * tileSizePx) = coord.col * tileSizePx
  /-- The first row does not wrap. -/
  asU32_row : asU32 (coord.row * tileSizePx) = coord.row * tileSizePx

/-- A tile of the grid starts within the frame. -/
theorem TileStart.of_lt {width height : ℕ} (hsize : width * height * 4 < 2 ^ 32) {coord : TileCoord}
    (hcol : coord.col < (TileGrid.new width height).cols)
    (hrow : coord.row < (TileGrid.new width height).rows) : TileStart width height coord := by
  have hx : coord.col * tileSizePx < width := TileGrid.start_lt hcol
  have hy : coord.row * tileSizePx < height := TileGrid.start_lt hrow
  have hwidth : width < 2 ^ 30 := by
    have := Nat.le_mul_of_pos_right width (by omega : 0 < height)
    omega
  have hheight : height < 2 ^ 30 := by
    have := Nat.le_mul_of_pos_left height (by omega : 0 < width)
    omega
  exact ⟨hx, hy, hwidth, hheight, asU32_of_lt (by omega), asU32_of_lt (by omega)⟩

/-- The pixel of a frame whose rows are `stride` bytes apart. -/
def stridedPixel (stride : ℕ) (fb : List UInt8) (x y : ℕ) : List UInt8 :=
  (fb.drop (y * stride + x * 4)).take 4

/-- Rows without a gap. -/
theorem stridedPixel_mul_four (width : ℕ) (fb : List UInt8) (x y : ℕ) :
    stridedPixel (width * 4) fb x y = pixelAt width fb x y := by
  rw [stridedPixel, pixelAt, chunk, Nat.add_mul, Nat.mul_assoc]

/-- The offset of a pixel of a frame whose rows are `stride` bytes apart does not wrap when the size
of the frame fits `u32`, and the pixel ends before the last row does. -/
theorem asU32_offset {width height stride x y : ℕ} (hsize : stride * height < 2 ^ 32)
    (hx : x < width) (hy : y < height) (hwidth : width < 2 ^ 30) (hheight : height < 2 ^ 30) :
    asU32 (asU32 y * stride) + asU32 (asU32 x * 4) = y * stride + x * 4 ∧
      y * stride + x * 4 + 4 ≤ stride * (height - 1) + width * 4 := by
  have hlast : y * stride ≤ stride * (height - 1) := by
    rw [Nat.mul_comm]
    exact Nat.mul_le_mul_left stride (by omega)
  have hfits : stride * (height - 1) ≤ stride * height := Nat.mul_le_mul_left stride (by omega)
  rw [asU32_of_lt (by omega : y < 2 ^ 32), asU32_of_lt (by omega : x < 2 ^ 32),
    asU32_of_lt (by omega : y * stride < 2 ^ 32), asU32_of_lt (by omega : x * 4 < 2 ^ 32)]
  exact ⟨rfl, by omega⟩

/-- A pixel of a tile has its place among those of the loops exactly when it lies in the frame. -/
theorem TileGrid.exists_clip_iff (width height : ℕ) {X Y r c : ℕ} (hX : X + tileSizePx ≤ 2 ^ 32)
    (hY : Y + tileSizePx ≤ 2 ^ 32) (hr : r < tileSizePx) (hc : c < tileSizePx) :
    (∃ r' ∈ clip Y height, ∃ c' ∈ clip X width, r' * tileSizePx + c' = r * tileSizePx + c) ↔
      Y + r < height ∧ X + c < width := by
  constructor
  · rintro ⟨r', hr', c', hc', heq⟩
    rw [mem_clip hY] at hr'
    rw [mem_clip hX] at hc'
    obtain ⟨rfl, rfl⟩ := pixel_inj hc'.1 hc heq
    exact ⟨hr'.2, hc'.2⟩
  · rintro ⟨hry, hcx⟩
    exact ⟨r, (mem_clip hY).mpr ⟨hr, hry⟩, c, (mem_clip hX).mpr ⟨hc, hcx⟩, rfl⟩

/-- The pixels of a tile of a frame with any stride: those of the frame, and zeros outside of it. -/
theorem TileGrid.extractTile_strided {width height stride : ℕ} (hwide : width * 4 ≤ stride)
    (hsize : stride * height < 2 ^ 32) {pixels : List UInt8}
    (hlen : stride * (height - 1) + width * 4 ≤ pixels.length) {coord : TileCoord}
    (hcol : coord.col < (new width height).cols) (hrow : coord.row < (new width height).rows) :
    ∃ tile, (new width height).extractTile pixels stride coord = some tile ∧
      tile.length = tileBytes ∧ ∀ r < tileSizePx, ∀ c < tileSizePx,
        pixelAt tileSizePx tile c r =
          if coord.row * tileSizePx + r < height ∧ coord.col * tileSizePx + c < width then
            stridedPixel stride pixels (coord.col * tileSizePx + c) (coord.row * tileSizePx + r)
          else List.replicate 4 0 := by
  have harea : width * height * 4 < 2 ^ 32 := by
    have hmul : width * 4 * height ≤ stride * height := Nat.mul_le_mul_right height hwide
    rw [Nat.mul_right_comm]
    omega
  obtain ⟨hx, hy, hwidth, hheight, hX, hY⟩ := TileStart.of_lt harea hcol hrow
  -- Nothing wraps, so the loops run over the part of the tile that lies in the frame.
  unfold extractTile
  dsimp only [new]
  rw [hX, hY]
  generalize coord.col * tileSizePx = X at hx ⊢
  generalize coord.row * tileSizePx = Y at hy ⊢
  have hXlt : X + tileSizePx ≤ 2 ^ 32 := by
    unfold tileSizePx
    omega
  have hYlt : Y + tileSizePx ≤ 2 ^ 32 := by
    unfold tileSizePx
    omega
  -- Each of them copies the pixel of the frame at its place.
  have hdst : ∀ r ∈ clip Y height, ∀ c ∈ clip X width,
      r * tileSizePx * 4 + c * 4 = (r * tileSizePx + c) * 4 ∧
        (r * tileSizePx + c + 1) * 4 ≤ (List.replicate tileBytes (0 : UInt8)).length := by
    intro r hr c hc
    rw [List.length_replicate]
    exact ⟨(Nat.add_mul _ _ _).symm,
      pixel_le ((mem_clip hXlt).mp hc).1 ((mem_clip hYlt).mp hr).1⟩
  have hsrc : ∀ r ∈ clip Y height, ∀ c ∈ clip X width,
      asU32 (asU32 (Y + r) * stride) + asU32 (asU32 (X + c) * 4) + 4 ≤ pixels.length ∧
        (pixels.drop (asU32 (asU32 (Y + r) * stride) + asU32 (asU32 (X + c) * 4))).take 4 =
          stridedPixel stride pixels (X + (r * tileSizePx + c) % tileSizePx)
            (Y + (r * tileSizePx + c) / tileSizePx) := by
    intro r hr c hc
    obtain ⟨-, hry⟩ := (mem_clip hYlt).mp hr
    obtain ⟨hc, hcx⟩ := (mem_clip hXlt).mp hc
    obtain ⟨hoff, hend⟩ := asU32_offset hsize hcx hry hwidth hheight
    rw [hoff, pixel_mod hc, piece_div hc]
    exact ⟨hend.trans hlen, rfl⟩
  obtain ⟨tile, hcopy, hfilled⟩ := copyRect_fills
    (fun j => stridedPixel stride pixels (X + j % tileSizePx) (Y + j / tileSizePx)) _ hdst hsrc
  refine ⟨tile, hcopy, ?_, ?_⟩
  · rw [hfilled.length_eq, List.length_replicate]
  · intro r hr c hc
    have hplace := exists_clip_iff width height hXlt hYlt hr hc
    split
    · next hin =>
      have hpix := hfilled.filled _ (hplace.mpr hin)
      rw [pixel_mod hc, piece_div hc] at hpix
      exact hpix
    · next hout =>
      have hpix := hfilled.kept _ fun h => hout (hplace.mp h)
      have hsize : (r * tileSizePx + c + 1) * 4 ≤ tileBytes := pixel_le hc hr
      rw [chunk_replicate hsize] at hpix
      exact hpix

/-- The pixels of a tile: those of the frame, and zeros outside of it. -/
theorem TileGrid.extractTile_spec {width height : ℕ} (hsize : width * height * 4 < 2 ^ 32)
    {pixels : List UInt8} (hlen : pixels.length = width * height * 4) {coord : TileCoord}
    (hcol : coord.col < (new width height).cols) (hrow : coord.row < (new width height).rows) :
    ∃ tile, (new width height).extractTile pixels (asU32 (width * 4)) coord = some tile ∧
      tile.length = tileBytes ∧ ∀ r < tileSizePx, ∀ c < tileSizePx,
        pixelAt tileSizePx tile c r =
          if coord.row * tileSizePx + r < height ∧ coord.col * tileSizePx + c < width then
            pixelAt width pixels (coord.col * tileSizePx + c) (coord.row * tileSizePx + r)
          else List.replicate 4 0 := by
  obtain ⟨-, hy, hwidth, -⟩ := TileStart.of_lt hsize hcol hrow
  have hrows : width * 4 * (height - 1) + width * 4 = width * height * 4 := by
    rw [← Nat.mul_succ, Nat.succ_eq_add_one, Nat.sub_add_cancel (by omega), Nat.mul_right_comm]
  obtain ⟨tile, hext, htile, hpix⟩ := extractTile_strided le_rfl
    (by rwa [Nat.mul_right_comm]) (by rw [hrows, hlen]) hcol hrow
  rw [asU32_of_lt (by omega : width * 4 < 2 ^ 32)]
  refine ⟨tile, hext, htile, ?_⟩
  simpa only [stridedPixel_mul_four] using hpix

end LowBand.Platform
