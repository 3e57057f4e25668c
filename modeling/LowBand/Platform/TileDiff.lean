import LowBand.Lib.Run
import LowBand.Lib.Symmetric
import LowBand.Lib.Table
import LowBand.Platform.TileGrid

/-!
# The tile change detector

`TileDiffDetector` of `screen_encoder.rs` stores a digest of each tile of the frame last seen and
reports the tiles whose digest is another in the next frame. `detect` compares and stores,
`update_hashes` only stores, for frames whose changes the operating system reports itself, and
`reset` forgets all digests. The digest is a parameter. In a run it has no collision among the
tiles of the frames, and none of them has the digest 0 that stands for no tile.

A `Frame` is a buffer that holds a frame of a fixed size. Its tiles are all extracted, and two
frames have the same tile exactly when they have the same pixels there (`tile_eq_iff`). While the
detector stores the digests of the tiles of the frame last seen (`Stores`), `detect` reports exactly
the tiles with other pixels (`detect_spec`).

A `Mirror` is a remote copy that repaints what the detector reports and, when `update_hashes` is
called, what the operating system reported. As long as those reports cover the pixels that changed,
the copy equals the latest frame after every step: `damage_never_lost`.
-/

namespace LowBand.Platform

open Lib

/-- The lower 32 bits of a number as an `i32`. -/
def asI32 (n : ℕ) : ℤ := Int.bmod n (2 ^ 32)

/-- The cast keeps a number below `2^31`. -/
theorem asI32_of_lt {n : ℕ} (h : n < 2 ^ 31) : asI32 n = n := by
  unfold asI32
  exact Int.bmod_eq_of_le_mul_two (by omega) (by omega)

/-- `DirtyRect`. -/
structure DirtyRect where
  /-- The left edge. -/
  x : ℤ
  /-- The upper edge. -/
  y : ℤ
  /-- The width. -/
  width : ℕ
  /-- The height. -/
  height : ℕ
deriving DecidableEq

/-- A pixel lies in a rectangle. -/
def DirtyRect.Contains (rect : DirtyRect) (x y : ℕ) : Prop :=
  rect.x ≤ x ∧ (x : ℤ) < rect.x + rect.width ∧ rect.y ≤ y ∧ (y : ℤ) < rect.y + rect.height

/-- Whether a pixel is in a rectangle can be decided. -/
instance (rect : DirtyRect) (x y : ℕ) : Decidable (rect.Contains x y) := by
  unfold DirtyRect.Contains
  infer_instance

/-! ## The detector -/

/-- `TileDiffDetector`. -/
structure TileDiffDetector where
  /-- The digests of the frame last seen, row by row. -/
  prevHashes : List UInt64
  /-- The number of tile columns. -/
  cols : ℕ
  /-- The number of tile rows. -/
  rows : ℕ
  /-- The width of the frames. -/
  frameWidth : ℕ
  /-- The height of the frames. -/
  frameHeight : ℕ
deriving DecidableEq

/-- The rectangle that is reported for a tile. -/
def TileCoord.rect (coord : TileCoord) : DirtyRect :=
  ⟨asI32 (asU32 (coord.col * tileSizePx)), asI32 (asU32 (coord.row * tileSizePx)), tileSizePx,
    tileSizePx⟩

namespace TileDiffDetector

/-- `TileDiffDetector::new`. -/
def new (frameWidth frameHeight : ℕ) : TileDiffDetector :=
  let grid := TileGrid.new frameWidth frameHeight
  ⟨List.replicate (asU32 (grid.cols * grid.rows)) 0, grid.cols, grid.rows, frameWidth, frameHeight⟩

variable (hash : List UInt8 → UInt64) (d : TileDiffDetector)

/-- The tiles, in the order of the loops. -/
def coords : List TileCoord :=
  (List.range d.rows).flatMap fun row => (List.range d.cols).map fun col => ⟨col, row⟩

/-- The place of the digest of a tile. -/
def idx (coord : TileCoord) : ℕ := asU32 (asU32 (coord.row * d.cols) + coord.col)

/-- The grid of the frames. -/
def grid : TileGrid := .new d.frameWidth d.frameHeight

/-- One tile of `detect`: what is reported and stored so far, and `none` when an index is out of
bounds. -/
def detectTile (pixels : List UInt8) (stride : ℕ) (st : List DirtyRect × List UInt64)
    (coord : TileCoord) : Option (List DirtyRect × List UInt64) := do
  let tile ← d.grid.extractTile pixels stride coord
  let prev ← st.2[d.idx coord]?
  if prev ≠ hash tile then
    pure (st.1 ++ [coord.rect], st.2.set (d.idx coord) (hash tile))
  else pure st

/-- `detect`. -/
def detect (pixels : List UInt8) (stride : ℕ) : Option (List DirtyRect × TileDiffDetector) := do
  let (dirty, prevHashes) ← d.coords.foldlM (d.detectTile hash pixels stride) ([], d.prevHashes)
  pure (dirty, { d with prevHashes })

/-- One tile of `update_hashes`. -/
def updateTile (pixels : List UInt8) (stride : ℕ) (prevHashes : List UInt64) (coord : TileCoord) :
    Option (List UInt64) := do
  let tile ← d.grid.extractTile pixels stride coord
  if d.idx coord < prevHashes.length then pure (prevHashes.set (d.idx coord) (hash tile)) else none

/-- `update_hashes`. -/
def updateHashes (pixels : List UInt8) (stride : ℕ) : Option TileDiffDetector := do
  let prevHashes ← d.coords.foldlM (d.updateTile hash pixels stride) d.prevHashes
  pure { d with prevHashes }

/-- `reset`. -/
def reset : TileDiffDetector := { d with prevHashes := d.prevHashes.map fun _ => 0 }

end TileDiffDetector

/-! ## Frames -/

/-- A buffer that holds a frame of a size, with rows some bytes apart, whose offsets fit `u32`. The
last row may end with its pixels. -/
structure Frame (width height : ℕ) where
  /-- The buffer. -/
  pixels : List UInt8
  /-- The distance of the rows. -/
  stride : ℕ
  /-- A row holds its pixels. -/
  wide : width * 4 ≤ stride
  /-- The offsets fit `u32`. -/
  size_lt : stride * height < 2 ^ 32
  /-- The buffer holds the rows. -/
  length_le : 0 < height → stride * (height - 1) + width * 4 ≤ pixels.length

namespace Frame

variable {width height : ℕ} (f g : Frame width height)

/-- A pixel of a frame. -/
def pixel (x y : ℕ) : List UInt8 := stridedPixel f.stride f.pixels x y

/-- A tile of a frame. -/
def tile (coord : TileCoord) : List UInt8 :=
  ((TileGrid.new width height).extractTile f.pixels f.stride coord).getD []

/-- Two frames have different pixels in a tile. -/
def Differs (coord : TileCoord) : Prop :=
  ∃ r < tileSizePx, ∃ c < tileSizePx, coord.row * tileSizePx + r < height ∧
    coord.col * tileSizePx + c < width ∧
      f.pixel (coord.col * tileSizePx + c) (coord.row * tileSizePx + r) ≠
        g.pixel (coord.col * tileSizePx + c) (coord.row * tileSizePx + r)

/-- Whether two frames differ in a tile can be decided. -/
instance (coord : TileCoord) : Decidable (f.Differs g coord) := by
  unfold Differs
  infer_instance

variable {f g} {coord : TileCoord} (hcol : coord.col < (TileGrid.new width height).cols)
  (hrow : coord.row < (TileGrid.new width height).rows)

include hrow

/-- The buffer of a frame with a tile holds its rows. -/
theorem length_le_of_row : f.stride * (height - 1) + width * 4 ≤ f.pixels.length := by
  apply f.length_le
  rw [TileGrid.new] at hrow
  unfold tileSizePx at hrow
  dsimp only at hrow
  omega

include hcol

/-- A tile of the grid is extracted. -/
theorem extractTile_eq :
    (TileGrid.new width height).extractTile f.pixels f.stride coord = some (f.tile coord) := by
  obtain ⟨t, hext, -⟩ :=
    TileGrid.extractTile_strided f.wide f.size_lt (length_le_of_row hrow) hcol hrow
  rw [tile, hext, Option.getD_some]

/-- The pixels of a tile. -/
theorem pixelAt_tile {r c : ℕ} (hr : r < tileSizePx) (hc : c < tileSizePx) :
    pixelAt tileSizePx (f.tile coord) c r =
      if coord.row * tileSizePx + r < height ∧ coord.col * tileSizePx + c < width then
        f.pixel (coord.col * tileSizePx + c) (coord.row * tileSizePx + r)
      else List.replicate 4 0 := by
  obtain ⟨tile, hext, -, hpix⟩ :=
    TileGrid.extractTile_strided f.wide f.size_lt (length_le_of_row hrow) hcol hrow
  rw [extractTile_eq hcol hrow] at hext
  rw [Option.some.inj hext]
  exact hpix r hr c hc

/-- A tile has its size. -/
theorem length_tile : (f.tile coord).length = tileBytes := by
  obtain ⟨tile, hext, hlen, -⟩ :=
    TileGrid.extractTile_strided f.wide f.size_lt (length_le_of_row hrow) hcol hrow
  rw [extractTile_eq hcol hrow] at hext
  rw [Option.some.inj hext, hlen]

/-- Two frames have the same tile exactly when they have the same pixels there. -/
theorem tile_eq_iff : f.tile coord = g.tile coord ↔ ¬ f.Differs g coord := by
  constructor
  · rintro heq ⟨r, hr, c, hc, hry, hcx, hne⟩
    have hf := pixelAt_tile (f := f) hcol hrow hr hc
    have hg := pixelAt_tile (f := g) hcol hrow hr hc
    rw [if_pos ⟨hry, hcx⟩] at hf hg
    exact hne (by rw [← hf, ← hg, heq])
  · intro hsame
    refine eq_of_chunk_eq (w := 4) (by decide)
      ((length_tile hcol hrow).trans (length_tile hcol hrow).symm) ?_
    intro i hi
    -- The place of a pixel in the tile gives its row and its column.
    have hlt : i < tileSizePx * tileSizePx := by
      rw [lt_length_chunks_iff (by decide), length_tile hcol hrow] at hi
      unfold tileBytes at hi
      unfold tileSizePx
      omega
    have hr : i / tileSizePx < tileSizePx := Nat.div_lt_of_lt_mul hlt
    have hc : i % tileSizePx < tileSizePx := Nat.mod_lt _ (by decide)
    have hf := pixelAt_tile (f := f) hcol hrow hr hc
    have hg := pixelAt_tile (f := g) hcol hrow hr hc
    rw [pixelAt, Nat.div_add_mod'] at hf hg
    rw [hf, hg]
    split
    · next hin =>
      by_contra hne
      exact hsame ⟨_, hr, _, hc, hin.1, hin.2, hne⟩
    · rfl

end Frame

/-- A larger frame is not read as it is: with rows `2^31` bytes apart, the offset of the third row
wraps to the first row, so that what follows the first two rows in the buffer is never read. -/
theorem extractTile_wraps (p q : List UInt8) (hp : 2 ^ 31 + 4 ≤ p.length) :
    (TileGrid.new 1 3).extractTile (p ++ q) (2 ^ 31) ⟨0, 0⟩ =
      (TileGrid.new 1 3).extractTile p (2 ^ 31) ⟨0, 0⟩ := by
  have hoff : ∀ r ∈ TileGrid.clip (asU32 (0 * tileSizePx)) 3,
      ∀ c ∈ TileGrid.clip (asU32 (0 * tileSizePx)) 1,
        asU32 (asU32 (asU32 (0 * tileSizePx) + r) * 2 ^ 31) +
          asU32 (asU32 (asU32 (0 * tileSizePx) + c) * 4) ≤ 2 ^ 31 := by decide
  unfold TileGrid.extractTile copyRect
  dsimp only
  refine foldlM_congr ?_ _
  intro dst r hr
  refine foldlM_congr ?_ _
  intro dst c hc
  have hread := hoff r hr c hc
  exact copySlice_append (by omega) dst _ q

/-! ## What the detector stores -/

namespace TileDiffDetector

variable {hash : List UInt8 → UInt64} {width height : ℕ} {d : TileDiffDetector}

/-- The detector is one for frames of a size, with a digest for each tile. -/
structure For (d : TileDiffDetector) (width height : ℕ) : Prop where
  /-- The tile columns are those of the grid. -/
  cols_eq : d.cols = (TileGrid.new width height).cols
  /-- The tile rows are those of the grid. -/
  rows_eq : d.rows = (TileGrid.new width height).rows
  /-- The width is that of the frames. -/
  width_eq : d.frameWidth = width
  /-- The height is that of the frames. -/
  height_eq : d.frameHeight = height
  /-- There are as many digests as tiles. -/
  length_eq : d.prevHashes.length = d.cols * d.rows
  /-- The places of the digests fit `u32`. -/
  count_lt : d.cols * d.rows < 2 ^ 32

/-- A grid has no more tiles than the frame has pixels. -/
theorem tile_count_le (width height : ℕ) :
    (TileGrid.new width height).cols * (TileGrid.new width height).rows ≤ width * height := by
  have hdiv : ∀ n, (n + tileSizePx - 1) / tileSizePx ≤ n := by
    intro n
    unfold tileSizePx
    omega
  exact Nat.mul_le_mul (hdiv width) (hdiv height)

/-- A new detector is one for its frames. -/
theorem for_new (hsize : width * height * 4 < 2 ^ 32) : (new width height).For width height := by
  have hcount := tile_count_le width height
  refine ⟨rfl, rfl, rfl, rfl, ?_, ?_⟩
  · unfold new
    dsimp only
    rw [List.length_replicate, asU32_of_lt (by omega)]
  · unfold new
    dsimp only
    omega

/-- The tiles are those of the grid. -/
theorem mem_coords {coord : TileCoord} :
    coord ∈ d.coords ↔ coord.col < d.cols ∧ coord.row < d.rows := by
  obtain ⟨col, row⟩ := coord
  simp [coords, and_comm]

/-- Each tile comes once. -/
theorem nodup_coords (d : TileDiffDetector) : d.coords.Nodup := by
  unfold coords
  rw [List.nodup_flatMap]
  constructor
  · intro row _
    refine List.nodup_range.map ?_
    intro col col' h
    exact (TileCoord.mk.inj h).1
  · refine List.nodup_range.imp ?_
    intro row row' hne coord hcoord hcoord'
    obtain ⟨col, -, rfl⟩ := List.mem_map.mp hcoord
    obtain ⟨col', -, h⟩ := List.mem_map.mp hcoord'
    exact hne (TileCoord.mk.inj h).2.symm

/-- The detector that has the digests of a frame. -/
def seeing (d : TileDiffDetector) (hash : List UInt8 → UInt64) (f : Frame width height) :
    TileDiffDetector :=
  { d with prevHashes := storeAll d.idx (fun coord => hash (f.tile coord)) d.coords d.prevHashes }

namespace For

variable (h : d.For width height)

include h

/-- The place of a digest, row by row. -/
theorem idx_eq {coord : TileCoord} (hcoord : coord ∈ d.coords) :
    d.idx coord = coord.row * d.cols + coord.col ∧ d.idx coord < d.prevHashes.length := by
  obtain ⟨hcol, hrow⟩ := mem_coords.mp hcoord
  have hlt : coord.row * d.cols + coord.col < d.cols * d.rows := by
    calc coord.row * d.cols + coord.col < coord.row * d.cols + d.cols := Nat.add_lt_add_left hcol _
      _ = d.cols * (coord.row + 1) := by rw [Nat.mul_succ, Nat.mul_comm]
      _ ≤ d.cols * d.rows := Nat.mul_le_mul_left _ hrow
  have hcount := h.count_lt
  rw [h.length_eq, idx, asU32_of_lt (by omega : coord.row * d.cols < 2 ^ 32),
    asU32_of_lt (by omega)]
  exact ⟨rfl, hlt⟩

/-- The tiles have different places. -/
theorem nodup_idx : (d.coords.map d.idx).Nodup := by
  refine List.Nodup.map_on ?_ d.nodup_coords
  intro a ha b hb heq
  rw [(h.idx_eq ha).1, (h.idx_eq hb).1] at heq
  obtain ⟨hcol, hrow⟩ := pixel_inj (mem_coords.mp ha).1 (mem_coords.mp hb).1 heq
  obtain ⟨col, row⟩ := a
  obtain ⟨col', row'⟩ := b
  exact congrArg₂ TileCoord.mk hcol hrow

/-- A tile of the detector is extracted. -/
theorem extractTile_eq {coord : TileCoord} (hcoord : coord ∈ d.coords) (f : Frame width height) :
    d.grid.extractTile f.pixels f.stride coord = some (f.tile coord) := by
  obtain ⟨hcol, hrow⟩ := mem_coords.mp hcoord
  rw [h.cols_eq] at hcol
  rw [h.rows_eq] at hrow
  rw [grid, h.width_eq, h.height_eq]
  exact Frame.extractTile_eq hcol hrow

/-- The detector with other digests, as many as before. -/
theorem with_hashes {prevHashes : List UInt64} (hlen : prevHashes.length = d.prevHashes.length) :
    ({ d with prevHashes } : TileDiffDetector).For width height :=
  ⟨h.cols_eq, h.rows_eq, h.width_eq, h.height_eq, hlen.trans h.length_eq, h.count_lt⟩

/-- The loop of `detect` compares and stores digests. -/
theorem detect_eq (hash : List UInt8 → UInt64) (f : Frame width height) :
    d.detect hash f.pixels f.stride =
      some ((d.coords.filter fun coord =>
          d.prevHashes[d.idx coord]? ≠ some (hash (f.tile coord))).map TileCoord.rect,
        d.seeing hash f) := by
  have hloop : d.coords.foldlM (d.detectTile hash f.pixels f.stride) ([], d.prevHashes) =
      d.coords.foldlM (changedStep d.idx (fun coord => hash (f.tile coord)) TileCoord.rect)
        ([], d.prevHashes) := by
    refine foldlM_congr ?_ _
    intro st coord hcoord
    rw [detectTile, h.extractTile_eq hcoord, changedStep, Option.bind_eq_bind, Option.bind_some]
    cases st.2[d.idx coord]? with
    | none => rfl
    | some prev => exact (apply_ite some _ _ _).symm
  unfold detect
  rw [hloop, foldlM_changedStep _ _ _ h.nodup_idx (fun coord hcoord => (h.idx_eq hcoord).2)]
  rfl

/-- The loop of `update_hashes` stores digests. -/
theorem updateHashes_eq (hash : List UInt8 → UInt64) (f : Frame width height) :
    d.updateHashes hash f.pixels f.stride = some (d.seeing hash f) := by
  have hloop : d.coords.foldlM (d.updateTile hash f.pixels f.stride) d.prevHashes =
      d.coords.foldlM (storeStep d.idx fun coord => hash (f.tile coord)) d.prevHashes := by
    refine foldlM_congr ?_ _
    intro st coord hcoord
    rw [updateTile, h.extractTile_eq hcoord]
    rfl
  unfold updateHashes
  rw [hloop, foldlM_storeStep _ _ (fun coord hcoord => (h.idx_eq hcoord).2)]
  rfl

/-- The tiles of the detector are those of the grid of its frames. -/
theorem coords_eq : d.coords = (new width height).coords := by
  unfold coords new
  rw [h.cols_eq, h.rows_eq]

end For

variable {seen : Option (Frame width height)}

/-- The detector is one for its frames and stores the digests of the frame last seen, or 0 when no
frame was seen since the digests were forgotten. -/
structure Stores (hash : List UInt8 → UInt64) (d : TileDiffDetector)
    (seen : Option (Frame width height)) : Prop extends d.For width height where
  /-- What is stored for a tile. -/
  stored : ∀ coord ∈ d.coords,
    d.prevHashes[d.idx coord]? = some (seen.elim 0 fun s => hash (s.tile coord))

/-- A new detector has seen no frame. -/
theorem stores_new (hsize : width * height * 4 < 2 ^ 32) :
    Stores hash (new width height) (none : Option (Frame width height)) := by
  refine ⟨for_new hsize, ?_⟩
  intro coord hcoord
  obtain ⟨-, hlt⟩ := (for_new hsize).idx_eq hcoord
  unfold new at hlt ⊢
  rw [List.length_replicate] at hlt
  rw [List.getElem?_replicate_of_lt hlt]
  rfl

/-- The digests of a frame are stored. -/
theorem For.stores_seeing (h : d.For width height) (f : Frame width height) :
    Stores hash (d.seeing hash f) (some f) := by
  refine ⟨h.with_hashes (length_storeAll _ _ _ _), ?_⟩
  intro coord hcoord
  exact getElem?_storeAll _ _ h.nodup_idx hcoord (h.idx_eq hcoord).2

/-- A reset forgets the frame last seen. -/
theorem For.stores_reset (h : d.For width height) :
    Stores hash d.reset (none : Option (Frame width height)) := by
  refine ⟨h.with_hashes (List.length_map _), ?_⟩
  intro coord hcoord
  have hlt : d.idx coord < d.prevHashes.length := (h.idx_eq hcoord).2
  calc (d.prevHashes.map fun _ => (0 : UInt64))[d.idx coord]? =
      d.prevHashes[d.idx coord]?.map fun _ => 0 := List.getElem?_map
    _ = some 0 := by rw [List.getElem?_eq_getElem hlt, Option.map_some]

end TileDiffDetector

open TileDiffDetector

/-- The tiles of a frame. -/
def Frame.tiles {width height : ℕ} (f : Frame width height) : List (List UInt8) :=
  (new width height).coords.map f.tile

/-- No two tiles of some frames have one digest, and none has the digest 0. -/
structure Distinct {width height : ℕ} (hash : List UInt8 → UInt64)
    (frames : List (Frame width height)) : Prop where
  /-- No two tiles collide. -/
  collisionFree : CollisionFree hash (frames.flatMap Frame.tiles)
  /-- No tile has the digest of no tile. -/
  ne_zero : ∀ t ∈ frames.flatMap Frame.tiles, hash t ≠ 0

/-- The rectangles of the tiles in which a frame differs from the one last seen, and of all tiles
when there is none. -/
def changedRects {width height : ℕ} (seen : Option (Frame width height)) (f : Frame width height) :
    List DirtyRect :=
  ((new width height).coords.filter fun coord => ∀ s ∈ seen, s.Differs f coord).map TileCoord.rect

section Detect

variable {hash : List UInt8 → UInt64} {width height : ℕ} {frames : List (Frame width height)}

/-- A tile of a frame of the list is hashed. -/
theorem Frame.tile_mem {f : Frame width height} (hf : f ∈ frames) {coord : TileCoord}
    (hcoord : coord ∈ (new width height).coords) : f.tile coord ∈ frames.flatMap Frame.tiles :=
  List.mem_flatMap.mpr ⟨f, hf, List.mem_map_of_mem hcoord⟩

/-- What is stored for a tile differs from its digest exactly when the frame differs there from the
one last seen. -/
theorem Distinct.digest_ne_iff (hhash : Distinct hash frames) {seen : Option (Frame width height)}
    {f : Frame width height} (hseen : ∀ s ∈ seen, s ∈ frames) (hf : f ∈ frames) {coord : TileCoord}
    (hcoord : coord ∈ (new width height).coords) :
    (seen.elim 0 fun s => hash (s.tile coord)) ≠ hash (f.tile coord) ↔
      ∀ s ∈ seen, s.Differs f coord := by
  have hftile := Frame.tile_mem hf hcoord
  cases seen with
  | none => simpa using (hhash.ne_zero _ hftile).symm
  | some s =>
    obtain ⟨hcol, hrow⟩ := mem_coords.mp hcoord
    have hstile := Frame.tile_mem (hseen s rfl) hcoord
    have hdigest : hash (s.tile coord) = hash (f.tile coord) ↔ s.tile coord = f.tile coord :=
      ⟨hhash.collisionFree _ hstile _ hftile, congrArg hash⟩
    simp only [Option.elim_some, Option.mem_some_iff, forall_eq']
    rw [ne_eq, hdigest, Frame.tile_eq_iff hcol hrow, not_not]

/-- `detect` reports exactly the tiles in which the frame differs from the one last seen, and stores
the digests of the frame. -/
theorem detect_spec (hhash : Distinct hash frames) {d : TileDiffDetector}
    {seen : Option (Frame width height)} (h : Stores hash d seen) {f : Frame width height}
    (hseen : ∀ s ∈ seen, s ∈ frames) (hf : f ∈ frames) :
    d.detect hash f.pixels f.stride = some (changedRects seen f, d.seeing hash f) := by
  have hfilter : (d.coords.filter fun coord =>
      d.prevHashes[d.idx coord]? ≠ some (hash (f.tile coord))) =
        d.coords.filter fun coord => ∀ s ∈ seen, s.Differs f coord := by
    apply List.filter_congr
    intro coord hcoord
    rw [h.stored coord hcoord, decide_eq_decide, ne_eq, Option.some_inj]
    rw [h.coords_eq] at hcoord
    exact hhash.digest_ne_iff hseen hf hcoord
  rw [h.detect_eq, hfilter, changedRects, h.coords_eq]

end Detect

/-! ## The remote copy -/

/-- What a caller does with the detector: a frame without reported changes goes to `detect`, one
with reported changes to `update_hashes`, and a new surface resets it. -/
inductive DetectorEvent (width height : ℕ)
  | detect (f : Frame width height)
  | updateHashes (f : Frame width height) (osRects : List DirtyRect)
  | reset

/-- The frame of an event. -/
def DetectorEvent.frame {width height : ℕ} :
    DetectorEvent width height → Option (Frame width height)
  | .detect f => some f
  | .updateHashes f _ => some f
  | .reset => none

/-- The detector and a remote copy of the screen. -/
structure Mirror (width height : ℕ) where
  /-- The detector. -/
  detector : TileDiffDetector
  /-- The frame last seen by the detector since its last reset. -/
  seen : Option (Frame width height)
  /-- The latest frame. -/
  latest : Option (Frame width height)
  /-- The pixels of the remote copy, by column and row. -/
  remote : ℕ → ℕ → List UInt8

/-- The pixels of a frame in some rectangles are painted over a copy. -/
def repaint {width height : ℕ} (rects : List DirtyRect) (f : Frame width height)
    (remote : ℕ → ℕ → List UInt8) (x y : ℕ) : List UInt8 :=
  if ∃ rect ∈ rects, rect.Contains x y then f.pixel x y else remote x y

section Repaint

variable {width height : ℕ} {x y : ℕ}

/-- The tile of a pixel. -/
def tileOf (x y : ℕ) : TileCoord := ⟨x / tileSizePx, y / tileSizePx⟩

/-- The tile of a pixel of a frame is one of its grid. -/
theorem tileOf_mem_coords (hx : x < width) (hy : y < height) :
    tileOf x y ∈ (new width height).coords := by
  have hdiv : ∀ {a n : ℕ}, a < n → a / tileSizePx < (n + tileSizePx - 1) / tileSizePx := by
    intro a n h
    unfold tileSizePx
    omega
  exact mem_coords.mpr ⟨hdiv hx, hdiv hy⟩

/-- The rectangle that is reported for the tile of a pixel contains the pixel. -/
theorem contains_rect_tileOf (hsize : width * height * 4 < 2 ^ 32) (hx : x < width)
    (hy : y < height) : (tileOf x y).rect.Contains x y := by
  have hwidth : width ≤ width * height := Nat.le_mul_of_pos_right _ (by omega)
  have hheight : height ≤ width * height := Nat.le_mul_of_pos_left _ (by omega)
  have hi32 : ∀ {a : ℕ}, a < 2 ^ 30 → asI32 (asU32 (a / tileSizePx * tileSizePx)) =
      ((a / tileSizePx * tileSizePx : ℕ) : ℤ) := by
    intro a ha
    have hle : a / tileSizePx * tileSizePx ≤ a := Nat.div_mul_le_self _ _
    rw [asU32_of_lt (by omega), asI32_of_lt (by omega)]
  unfold DirtyRect.Contains TileCoord.rect tileOf
  dsimp only
  rw [hi32 (by omega), hi32 (by omega)]
  unfold tileSizePx
  omega

/-- When a copy has the pixel of the frame last seen, repainting the changed tiles gives it that of
the new frame. -/
theorem repaint_changedRects (hsize : width * height * 4 < 2 ^ 32)
    {seen : Option (Frame width height)} {f : Frame width height} {remote : ℕ → ℕ → List UInt8}
    (hx : x < width) (hy : y < height) (hremote : ∀ s ∈ seen, remote x y = s.pixel x y) :
    repaint (changedRects seen f) f remote x y = f.pixel x y := by
  unfold repaint
  split
  · rfl
  · next hnot =>
    -- The pixel is in no changed tile, so it is what was seen.
    have hunchanged : ¬ ∀ s ∈ seen, s.Differs f (tileOf x y) := by
      intro hdiff
      refine hnot ⟨(tileOf x y).rect, ?_, contains_rect_tileOf hsize hx hy⟩
      refine List.mem_map_of_mem (List.mem_filter.mpr ⟨tileOf_mem_coords hx hy, ?_⟩)
      exact decide_eq_true hdiff
    push Not at hunchanged
    obtain ⟨s, hs, hsame⟩ := hunchanged
    rw [hremote s hs]
    by_contra hne
    refine hsame ⟨y % tileSizePx, Nat.mod_lt _ (by decide), x % tileSizePx,
      Nat.mod_lt _ (by decide), ?_⟩
    unfold tileOf
    rw [Nat.div_add_mod', Nat.div_add_mod']
    exact ⟨hy, hx, hne⟩

end Repaint

namespace Mirror

variable {width height : ℕ} (hash : List UInt8 → UInt64)

/-- A new detector with any remote copy. -/
def start (width height : ℕ) (remote : ℕ → ℕ → List UInt8) : Mirror width height :=
  ⟨.new width height, none, none, remote⟩

/-- One event: the remote copy repaints the rectangles that `detect` returns or that were reported
with the frame. -/
def step (m : Mirror width height) : DetectorEvent width height → Option (Mirror width height)
  | .detect f => do
    let (rects, detector) ← m.detector.detect hash f.pixels f.stride
    pure ⟨detector, some f, some f, repaint rects f m.remote⟩
  | .updateHashes f osRects => do
    let detector ← m.detector.updateHashes hash f.pixels f.stride
    pure ⟨detector, some f, some f, repaint osRects f m.remote⟩
  | .reset => some { m with detector := m.detector.reset, seen := none }

/-- One event of a run; `none` once an index was out of bounds. -/
def stepRun (m : Option (Mirror width height)) (e : DetectorEvent width height) :
    Option (Mirror width height) :=
  m.bind fun m => m.step hash e

/-- The reported rectangles of an event cover the pixels that differ from the latest frame. -/
def Covered (m : Mirror width height) : DetectorEvent width height → Prop
  | .updateHashes f osRects => ∀ x < width, ∀ y < height,
      (∀ g ∈ m.latest, g.pixel x y ≠ f.pixel x y) → ∃ rect ∈ osRects, rect.Contains x y
  | _ => True

/-- The remote copy has the pixels of the latest frame. -/
def UpToDate (m : Mirror width height) : Prop :=
  ∀ f ∈ m.latest, ∀ x < width, ∀ y < height, m.remote x y = f.pixel x y

variable {hash} {frames : List (Frame width height)}

/-- The detector stores the digests of the frame last seen, which is one of the run and, unless it
was forgotten, the latest one. -/
structure Sound (hash : List UInt8 → UInt64) (frames : List (Frame width height))
    (m : Mirror width height) : Prop where
  /-- The digests are those of the frame last seen. -/
  stores : Stores hash m.detector m.seen
  /-- The frame last seen is one of the run. -/
  seen_mem : ∀ s ∈ m.seen, s ∈ frames
  /-- The frame last seen is the latest one. -/
  seen_latest : ∀ s ∈ m.seen, m.latest = some s

/-- The state after an event. -/
def next (hash : List UInt8 → UInt64) (m : Mirror width height) :
    DetectorEvent width height → Mirror width height
  | .detect f =>
    ⟨m.detector.seeing hash f, some f, some f, repaint (changedRects m.seen f) f m.remote⟩
  | .updateHashes f osRects =>
    ⟨m.detector.seeing hash f, some f, some f, repaint osRects f m.remote⟩
  | .reset => { m with detector := m.detector.reset, seen := none }

/-- No event fails. -/
theorem Sound.step_eq (hhash : Distinct hash frames) {m : Mirror width height}
    (h : m.Sound hash frames) {e : DetectorEvent width height} (he : ∀ f ∈ e.frame, f ∈ frames) :
    m.step hash e = some (m.next hash e) := by
  cases e with
  | detect f =>
    rw [step, detect_spec hhash h.stores h.seen_mem (he f rfl)]
    rfl
  | updateHashes f osRects =>
    rw [step, h.stores.updateHashes_eq]
    rfl
  | reset => rfl

/-- Each event keeps what the detector stores. -/
theorem Sound.next {m : Mirror width height} (h : m.Sound hash frames)
    {e : DetectorEvent width height} (he : ∀ f ∈ e.frame, f ∈ frames) :
    (m.next hash e).Sound hash frames := by
  have hframe : ∀ f : Frame width height, ∀ s ∈ some f, some f = some s := by simp
  cases e with
  | detect f => exact ⟨h.stores.stores_seeing f, he, hframe f⟩
  | updateHashes f osRects => exact ⟨h.stores.stores_seeing f, he, hframe f⟩
  | reset => exact ⟨h.stores.stores_reset, by simp [Mirror.next], by simp [Mirror.next]⟩

/-- An event whose changes are reported keeps the remote copy up to date. -/
theorem Sound.upToDate_next (hsize : width * height * 4 < 2 ^ 32) {m : Mirror width height}
    (h : m.Sound hash frames) (hm : m.UpToDate) {e : DetectorEvent width height}
    (hcovered : m.Covered e) : (m.next hash e).UpToDate := by
  cases e with
  | detect f =>
    rintro _ ⟨⟩ x hx y hy
    refine repaint_changedRects hsize hx hy ?_
    intro s hs
    exact hm s (h.seen_latest s hs) x hx y hy
  | updateHashes f osRects =>
    rintro _ ⟨⟩ x hx y hy
    simp only [Mirror.next, repaint]
    split
    · rfl
    · next hnot =>
      -- A pixel that no rectangle covers did not change.
      have hsame : ¬ ∀ g ∈ m.latest, g.pixel x y ≠ f.pixel x y :=
        fun hne => hnot (hcovered x hx y hy hne)
      push Not at hsame
      obtain ⟨g, hg, heq⟩ := hsame
      rw [hm g hg x hx y hy, heq]
  | reset => exact hm

/-- The state after the events of a run. -/
def after (hash : List UInt8 → UInt64) (remote : ℕ → ℕ → List UInt8)
    (es : List (DetectorEvent width height)) : Option (Mirror width height) :=
  run (stepRun hash) (some (start width height remote)) es

/-- Along a run, the rectangles reported with each frame cover the pixels that differ from the frame
before it. -/
def CoveredRun (hash : List UInt8 → UInt64) (m : Option (Mirror width height))
    (es : List (DetectorEvent width height)) : Prop :=
  Guarded (stepRun hash) (fun m e => ∀ m' ∈ m, m'.Covered e) m es

/-- No event of a run fails, and when the changes are reported, the remote copy stays up to date. -/
theorem Sound.run_stepRun (hsize : width * height * 4 < 2 ^ 32) (hhash : Distinct hash frames)
    {es : List (DetectorEvent width height)} (hes : es.filterMap DetectorEvent.frame ⊆ frames)
    {m : Mirror width height} (h : m.Sound hash frames) :
    ∃ m', run (stepRun hash) (some m) es = some m' ∧ m'.Sound hash frames ∧
      (m.UpToDate → CoveredRun hash (some m) es → m'.UpToDate) := by
  -- By induction on the events: each keeps the hashes those of the frame last seen.
  induction es generalizing m with
  | nil => exact ⟨m, rfl, h, fun hm _ => hm⟩
  | cons e es ih =>
    have he : ∀ f ∈ e.frame, f ∈ frames := by
      intro f hf
      exact hes (List.mem_filterMap.mpr ⟨e, List.mem_cons_self, hf⟩)
    have hrest : es.filterMap DetectorEvent.frame ⊆ frames :=
      fun f hf => hes (List.Sublist.subset ((List.sublist_cons_self e es).filterMap _) hf)
    have hstep : stepRun hash (some m) e = some (m.next hash e) := h.step_eq hhash he
    obtain ⟨m', hrun, hsound, hup⟩ := ih hrest (h.next he)
    refine ⟨m', ?_, hsound, ?_⟩
    · rw [run_cons, hstep, hrun]
    · rintro hm ⟨hcovered, hguarded⟩
      rw [hstep] at hguarded
      exact hup (h.upToDate_next hsize hm (hcovered m rfl)) hguarded

end Mirror

/-- No run fails. After each run, `detect` returns exactly the tiles in which its frame differs from
the one last seen, all of them when there is none. When the rectangles reported with the frames of
`update_hashes` cover what changed, the remote copy has the pixels of the latest frame. -/
theorem damage_never_lost {width height : ℕ} (hsize : width * height * 4 < 2 ^ 32)
    (hash : List UInt8 → UInt64) (remote : ℕ → ℕ → List UInt8)
    (es : List (DetectorEvent width height))
    (hhash : Distinct hash (es.filterMap DetectorEvent.frame)) :
    ∃ m, Mirror.after hash remote es = some m ∧
      (∀ f, Distinct hash (f :: es.filterMap DetectorEvent.frame) →
        (m.detector.detect hash f.pixels f.stride).map Prod.fst = some (changedRects m.seen f)) ∧
      (Mirror.CoveredRun hash (some (.start width height remote)) es → m.UpToDate) := by
  have hstart : ∀ frames : List (Frame width height),
      (Mirror.start width height remote).Sound hash frames := by
    intro frames
    exact ⟨stores_new hsize, by simp [Mirror.start], by simp [Mirror.start]⟩
  obtain ⟨m, hrun, hsound, hup⟩ :=
    (hstart _).run_stepRun hsize hhash (List.Subset.refl _)
  refine ⟨m, hrun, ?_, hup (by simp [Mirror.start, Mirror.UpToDate])⟩
  intro f hf
  rw [detect_spec hf hsound.stores (fun s hs => List.mem_cons_of_mem _ (hsound.seen_mem s hs))
    List.mem_cons_self]
  rfl

/-- A frame of one pixel. -/
def pixelFrame (b : UInt8) : Frame 1 1 :=
  ⟨[b, 0, 0, 255], 4, by decide, by decide, fun _ => Nat.le_refl 4⟩

/-- A digest that tells tiles by their first byte. -/
def firstByteDigest (tile : List UInt8) : UInt64 := (tile.headD 0).toUInt64 + 1

/-- The first byte of the tile of such a frame is that of the pixel. -/
theorem digest_pixelFrame (b : UInt8) :
    firstByteDigest ((pixelFrame b).tile ⟨0, 0⟩) = b.toUInt64 + 1 := by
  have hpix : pixelAt tileSizePx ((pixelFrame b).tile ⟨0, 0⟩) 0 0 = [b, 0, 0, 255] := by
    rw [Frame.pixelAt_tile (by decide) (by decide) (by decide) (by decide)]
    rfl
  have hhead : ((pixelFrame b).tile ⟨0, 0⟩).head? = some b := by
    have htake := congrArg List.head? hpix
    unfold pixelAt chunk at htake
    rwa [List.head?_take, if_neg (by decide)] at htake
  rw [firstByteDigest, List.headD_eq_head?_getD, hhead, Option.getD_some]

/-- The digests of frames of one pixel are distinct. -/
theorem distinct_pixelFrames (bs : List UInt8) :
    Distinct firstByteDigest (bs.map pixelFrame) := by
  -- All tiles are of one pixel, whose digest tells its first byte.
  have hmem : ∀ t ∈ (bs.map pixelFrame).flatMap Frame.tiles,
      ∃ b, t = (pixelFrame b).tile ⟨0, 0⟩ ∧ firstByteDigest t = b.toUInt64 + 1 := by
    intro t ht
    obtain ⟨_, hf, ht⟩ := List.mem_flatMap.mp ht
    obtain ⟨b, -, rfl⟩ := List.mem_map.mp hf
    have heq : t = (pixelFrame b).tile ⟨0, 0⟩ := List.mem_singleton.mp ht
    exact ⟨b, heq, by rw [heq, digest_pixelFrame]⟩
  constructor
  · intro t ht t' ht' heq
    obtain ⟨b, htile, hb⟩ := hmem t ht
    obtain ⟨b', htile', hb'⟩ := hmem t' ht'
    have hcast : b.toUInt64 = b'.toUInt64 := by simpa [hb, hb'] using heq
    rw [htile, htile', UInt8.toUInt64_inj.mp hcast]
  · intro t ht hzero
    obtain ⟨b, -, hb⟩ := hmem t ht
    have hnat := congrArg UInt64.toNat (hb.symm.trans hzero)
    have hlt := b.toNat_lt
    simp at hnat
    omega

/-- A change that is reported, a reset and a frame that is not new. -/
theorem damage_never_lost_reported :
    let es : List (DetectorEvent 1 1) :=
      [.detect (pixelFrame 1), .updateHashes (pixelFrame 2) [⟨0, 0, 1, 1⟩], .reset]
    Distinct firstByteDigest (es.filterMap DetectorEvent.frame) ∧
      ∃ m, Mirror.after firstByteDigest (fun _ _ => []) es = some m ∧
        (m.detector.detect firstByteDigest (pixelFrame 2).pixels (pixelFrame 2).stride).map
          Prod.fst = some (changedRects m.seen (pixelFrame 2)) ∧ m.UpToDate := by
  intro es
  have hhash : Distinct firstByteDigest (es.filterMap DetectorEvent.frame) :=
    distinct_pixelFrames [1, 2]
  have hnext : Distinct firstByteDigest (pixelFrame 2 :: es.filterMap DetectorEvent.frame) :=
    distinct_pixelFrames [2, 1, 2]
  -- The one update reports the whole frame.
  have hcovered : Mirror.CoveredRun firstByteDigest (some (.start 1 1 fun _ _ => [])) es := by
    refine ⟨fun _ _ => trivial, ?_, fun _ _ => trivial, trivial⟩
    intro m _ x hx y hy _
    refine ⟨⟨0, 0, 1, 1⟩, List.mem_singleton_self _, ?_⟩
    unfold DirtyRect.Contains
    dsimp only
    omega
  obtain ⟨m, hrun, hdetect, hup⟩ :=
    damage_never_lost (by decide) firstByteDigest (fun _ _ => []) es hhash
  exact ⟨hhash, m, hrun, hdetect _ hnext, hup hcovered⟩

/-- A change that is stored without being reported is never repainted: the latest frame has another
pixel than the remote copy, also after the frame was given to `detect`. -/
theorem unreported_change_lost :
    let es : List (DetectorEvent 1 1) :=
      [.detect (pixelFrame 1), .updateHashes (pixelFrame 2) [], .detect (pixelFrame 2)]
    Distinct firstByteDigest (es.filterMap DetectorEvent.frame) ∧
      (Mirror.after firstByteDigest (fun _ _ => []) es).map (fun m =>
        (m.remote 0 0, m.latest.map fun f => f.pixel 0 0)) =
          some ([1, 0, 0, 255], some [2, 0, 0, 255]) :=
  ⟨distinct_pixelFrames [1, 2, 2], by decide +kernel⟩

end LowBand.Platform
