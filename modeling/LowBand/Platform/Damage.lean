import LowBand.Lib.Loop
import LowBand.Platform.TileDiff
import Mathlib.Data.Int.ConditionallyCompleteOrder

/-!
# Damage rectangles

`tiles_for_rect` of `screen_encoder.rs` lists the tiles that a damage rectangle touches. The ends of
the rectangle are computed in `i32`: the sizes are cast, which makes those from `2^31` on negative,
and the sum saturates. `tiles_for_rect_iff` says for which rectangles the tiles are those of the
rectangle clipped to the frame all the same.

`merge_damage_rects` replaces two rectangles by their bounding box while that is less than 1.3 times
as large as they are together. The loop is one pass over a pair after another (`mergeBody`): a merge
takes a rectangle away, and a round over all pairs without a merge is the last one, which
`mergeLoop` states as a measure. Areas are compared in `u64`, where ten or thirteen times an area
may wrap. `merge_damage_rects_spec` says that no pixel is lost and no rectangle added, and that no
two rectangles are left to merge when no comparison of the run wraps.
-/

namespace LowBand.Platform

open Lib

/-- `saturating_add` of `i32`. -/
def saturatingAddI32 (a b : ℤ) : ℤ := max (-2 ^ 31) (min (a + b) (2 ^ 31 - 1))

/-- The fields of a rectangle are in the range of their types, `i32` and `u32`. -/
structure DirtyRect.InRange (rect : DirtyRect) : Prop where
  /-- The left edge is an `i32`. -/
  x_mem : -2 ^ 31 ≤ rect.x ∧ rect.x < 2 ^ 31
  /-- The upper edge is an `i32`. -/
  y_mem : -2 ^ 31 ≤ rect.y ∧ rect.y < 2 ^ 31
  /-- The width is a `u32`. -/
  width_lt : rect.width < 2 ^ 32
  /-- The height is a `u32`. -/
  height_lt : rect.height < 2 ^ 32

/-! ## The tiles of a rectangle -/

/-- Where a rectangle starts in the frame, along one axis. -/
def clipStart (pos : ℤ) : ℕ := (max pos 0).toNat

/-- Where a rectangle ends in the frame, along one axis, as `tiles_for_rect` computes it. -/
def clipEnd (pos : ℤ) (size limit : ℕ) : ℕ :=
  min (max (saturatingAddI32 pos (asI32 size)) 0).toNat limit

/-- `tiles_for_rect`. The capacity of the list is only a hint and is left out. -/
def TileGrid.tilesForRect (g : TileGrid) (rect : DirtyRect) : List TileCoord :=
  let x0 := clipStart rect.x
  let y0 := clipStart rect.y
  let x1 := clipEnd rect.x rect.width g.frameWidth
  let y1 := clipEnd rect.y rect.height g.frameHeight
  if x1 ≤ x0 ∨ y1 ≤ y0 then []
  else
    let colMin := x0 / tileSizePx
    let colMax := (x1 - 1) / tileSizePx
    let rowMin := y0 / tileSizePx
    let rowMax := (y1 - 1) / tileSizePx
    (List.range' rowMin (rowMax + 1 - rowMin)).flatMap fun row =>
      (List.range' colMin (colMax + 1 - colMin)).map fun col => ⟨col, row⟩

/-- A tile has a pixel of the frame that lies in the rectangle. -/
def TileCoord.Overlaps (coord : TileCoord) (width height : ℕ) (rect : DirtyRect) : Prop :=
  ∃ x < width, ∃ y < height,
    rect.Contains x y ∧ x / tileSizePx = coord.col ∧ y / tileSizePx = coord.row

/-- A tile comes before another row by row. -/
def TileCoord.Before (a b : TileCoord) : Prop := a.row < b.row ∨ a.row = b.row ∧ a.col < b.col

/-- The tiles of a list are those that overlap a rectangle in the frame, each once, row by row. -/
structure ListsTiles (width height : ℕ) (rect : DirtyRect) (tiles : List TileCoord) : Prop where
  /-- The tiles are those that overlap. -/
  mem_iff : ∀ coord, coord ∈ tiles ↔ coord.Overlaps width height rect
  /-- They are in raster order, and so none is there twice. -/
  sorted : tiles.Pairwise TileCoord.Before

/-- The part of a rectangle inside the frame along one axis. -/
def AxisMem (pos : ℤ) (size limit k : ℕ) : Prop := k < limit ∧ pos ≤ k ∧ (k : ℤ) < pos + size

/-- The ends along one axis are computed without an overflow that changes a tile. -/
def AxisExact (pos : ℤ) (size limit : ℕ) : Prop :=
  size < 2 ^ 31 ∧ min (pos + size) limit ≤ 2 ^ 31 ∧ pos < 2 ^ 31 - 1

/-- From `2 ^ 31` on a cast is negative. -/
theorem asI32_of_ge {n : ℕ} (h : 2 ^ 31 ≤ n) (hn : n < 2 ^ 32) : asI32 n = n - 2 ^ 32 := by
  unfold asI32
  rw [Int.bmod_def]
  omega

/-- The tiles between the first and the last pixel of a range are those of its pixels. -/
theorem tile_mem_range {a b t : ℕ} :
    (a < b ∧ a / tileSizePx ≤ t ∧ t ≤ (b - 1) / tileSizePx) ↔
      ∃ k, a ≤ k ∧ k < b ∧ k / tileSizePx = t := by
  unfold tileSizePx
  constructor
  · rintro ⟨hab, hlo, hhi⟩
    refine ⟨max a (32 * t), ?_⟩
    omega
  · rintro ⟨k, ha, hb, rfl⟩
    omega

section Axis

variable {pos : ℤ} {size limit : ℕ}

/-- What the code takes lies in the rectangle and in the frame. -/
theorem axisMem_of_clip (hpos : -2 ^ 31 ≤ pos) (hsize : size < 2 ^ 32) {k : ℕ}
    (hstart : clipStart pos ≤ k) (hend : k < clipEnd pos size limit) :
    AxisMem pos size limit k := by
  unfold clipStart at hstart
  unfold clipEnd saturatingAddI32 at hend
  unfold AxisMem
  rcases Nat.lt_or_ge size (2 ^ 31) with h | h
  · rw [asI32_of_lt h] at hend
    omega
  · rw [asI32_of_ge h hsize] at hend
    omega

/-- Without an overflow the tiles of the rectangle are those that the code takes. -/
theorem exists_clip_of_axisMem (hexact : AxisExact pos size limit) {k : ℕ}
    (hk : AxisMem pos size limit k) :
    ∃ k', clipStart pos ≤ k' ∧ k' < clipEnd pos size limit ∧
      k' / tileSizePx = k / tileSizePx := by
  obtain ⟨hsize, hend, hpos⟩ := hexact
  obtain ⟨hlimit, hlo, hhi⟩ := hk
  unfold clipStart clipEnd saturatingAddI32 tileSizePx
  rw [asI32_of_lt hsize]
  -- The sum may lose its last pixel, which is in the tile of the pixel before it.
  rcases Nat.lt_or_ge k (2 ^ 31 - 1) with h | h
  · exact ⟨k, by omega, by omega, rfl⟩
  · exact ⟨2 ^ 31 - 2, by omega, by omega, by omega⟩

/-- With an overflow a tile of the rectangle is missing. -/
theorem exists_missing (hpos : -2 ^ 31 ≤ pos) (hpos' : pos < 2 ^ 31) (hsize : size < 2 ^ 32)
    (hexact : ¬AxisExact pos size limit) {k : ℕ} (hk : AxisMem pos size limit k) :
    ∃ m, AxisMem pos size limit m ∧ ∀ k', clipStart pos ≤ k' → k' < clipEnd pos size limit →
      k' / tileSizePx ≠ m / tileSizePx := by
  obtain ⟨hlimit, hlo, hhi⟩ := hk
  unfold AxisExact at hexact
  unfold AxisMem clipStart clipEnd saturatingAddI32 tileSizePx
  rcases Nat.lt_or_ge size (2 ^ 31) with h | h
  · rw [asI32_of_lt h]
    rcases lt_or_ge pos (2 ^ 31 - 1) with hp | hp
    · -- The rectangle reaches past the saturated end by a whole tile.
      exact ⟨(min (pos + size) limit).toNat - 1, by omega, by omega⟩
    · exact ⟨k, by omega, by omega⟩
  · -- A negative size leaves nothing.
    rw [asI32_of_ge h hsize]
    exact ⟨k, by omega, by omega⟩

end Axis

/-- A tile is marked when both of its axes meet the clipped rectangle. -/
theorem TileGrid.mem_tilesForRect {g : TileGrid} {rect : DirtyRect} {coord : TileCoord} :
    coord ∈ g.tilesForRect rect ↔
      (∃ x, clipStart rect.x ≤ x ∧ x < clipEnd rect.x rect.width g.frameWidth ∧
        x / tileSizePx = coord.col) ∧
      ∃ y, clipStart rect.y ≤ y ∧ y < clipEnd rect.y rect.height g.frameHeight ∧
        y / tileSizePx = coord.row := by
  rw [← tile_mem_range, ← tile_mem_range]
  unfold tilesForRect
  dsimp only
  split
  -- An empty intersection lists nothing.
  · next hempty =>
    constructor
    · intro h
      exact absurd h List.not_mem_nil
    · rintro ⟨⟨hx, -⟩, hy, -⟩
      omega
  · next hsome =>
    obtain ⟨hx, hy⟩ := not_or.mp hsome
    simp only [List.mem_flatMap, List.mem_map, List.mem_range'_1]
    constructor
    · rintro ⟨row, hrow, col, hcol, rfl⟩
      dsimp only
      omega
    · rintro ⟨⟨-, hcol, hcol'⟩, -, hrow, hrow'⟩
      exact ⟨coord.row, by omega, coord.col, by omega, rfl⟩

/-- The tiles come row by row, and none twice. -/
theorem TileGrid.tilesForRect_sorted (g : TileGrid) (rect : DirtyRect) :
    (g.tilesForRect rect).Pairwise TileCoord.Before := by
  unfold tilesForRect
  dsimp only
  split
  · exact List.Pairwise.nil
  · rw [List.pairwise_flatMap]
    refine ⟨fun row _ => ?_, ?_⟩
    · rw [List.pairwise_map]
      exact (List.pairwise_lt_range' 1).imp fun h => .inr ⟨rfl, h⟩
    · refine (List.pairwise_lt_range' 1).imp fun {row row'} h a ha b hb => ?_
      obtain ⟨col, -, rfl⟩ := List.mem_map.mp ha
      obtain ⟨col', -, rfl⟩ := List.mem_map.mp hb
      exact .inl h

/-- A tile overlaps a rectangle when it has a pixel of it along both axes. -/
theorem TileCoord.overlaps_iff {coord : TileCoord} {width height : ℕ} {rect : DirtyRect} :
    coord.Overlaps width height rect ↔
      (∃ x, AxisMem rect.x rect.width width x ∧ x / tileSizePx = coord.col) ∧
        ∃ y, AxisMem rect.y rect.height height y ∧ y / tileSizePx = coord.row := by
  constructor
  · rintro ⟨x, hx, y, hy, ⟨hx0, hx1, hy0, hy1⟩, hcol, hrow⟩
    exact ⟨⟨x, ⟨hx, hx0, hx1⟩, hcol⟩, y, ⟨hy, hy0, hy1⟩, hrow⟩
  · rintro ⟨⟨x, ⟨hx, hx0, hx1⟩, hcol⟩, y, ⟨hy, hy0, hy1⟩, hrow⟩
    exact ⟨x, hx, y, hy, ⟨hx0, hx1, hy0, hy1⟩, hcol, hrow⟩

/-- The rectangle has no pixel in the frame. -/
def DirtyRect.Outside (rect : DirtyRect) (width height : ℕ) : Prop :=
  min (rect.x + rect.width) width ≤ max rect.x 0 ∨ min (rect.y + rect.height) height ≤ max rect.y 0

/-- An axis meets the frame when its clipped range is not empty. -/
theorem exists_axisMem_iff {pos : ℤ} {size limit : ℕ} :
    (∃ k, AxisMem pos size limit k) ↔ max pos 0 < min (pos + size) limit := by
  unfold AxisMem
  constructor
  · rintro ⟨k, hk⟩
    omega
  · intro h
    exact ⟨(max pos 0).toNat, by omega⟩

/-- The tiles of a rectangle are listed as they should be exactly when it lies outside the frame, or
its sizes are below `2^31` and it reaches into the frame no further than that. -/
theorem tiles_for_rect_iff (width height : ℕ) (rect : DirtyRect) (hrect : rect.InRange) :
    ListsTiles width height rect ((TileGrid.new width height).tilesForRect rect) ↔
      rect.Outside width height ∨
        AxisExact rect.x rect.width width ∧ AxisExact rect.y rect.height height := by
  obtain ⟨hx, hy, hw, hh⟩ := hrect
  constructor
  · rintro ⟨hmem, -⟩
    by_contra hnot
    obtain ⟨hin, hexact⟩ := not_or.mp hnot
    obtain ⟨hinx, hiny⟩ := not_or.mp hin
    obtain ⟨x, hxm⟩ := exists_axisMem_iff.mpr (not_le.mp hinx)
    obtain ⟨y, hym⟩ := exists_axisMem_iff.mpr (not_le.mp hiny)
    -- A pixel that is cut off on one axis, with any of the other, is in a missing tile.
    rcases not_and_or.mp hexact with hbad | hbad
    · obtain ⟨m, hm, hmiss⟩ := exists_missing hx.1 hx.2 hw hbad hxm
      have hover : (TileCoord.mk (m / tileSizePx) (y / tileSizePx)).Overlaps width height rect :=
        TileCoord.overlaps_iff.mpr ⟨⟨m, hm, rfl⟩, y, hym, rfl⟩
      obtain ⟨⟨x', h0, h1, heq⟩, -⟩ := TileGrid.mem_tilesForRect.mp ((hmem _).mpr hover)
      exact hmiss x' h0 h1 heq
    · obtain ⟨m, hm, hmiss⟩ := exists_missing hy.1 hy.2 hh hbad hym
      have hover : (TileCoord.mk (x / tileSizePx) (m / tileSizePx)).Overlaps width height rect :=
        TileCoord.overlaps_iff.mpr ⟨⟨x, hxm, rfl⟩, m, hm, rfl⟩
      obtain ⟨-, y', h0, h1, heq⟩ := TileGrid.mem_tilesForRect.mp ((hmem _).mpr hover)
      exact hmiss y' h0 h1 heq
  · intro hcond
    refine ⟨fun coord => ?_, TileGrid.tilesForRect_sorted _ _⟩
    rw [TileGrid.mem_tilesForRect, TileCoord.overlaps_iff]
    constructor
    · rintro ⟨⟨x, hx0, hx1, hcol⟩, y, hy0, hy1, hrow⟩
      exact ⟨⟨x, axisMem_of_clip hx.1 hw hx0 hx1, hcol⟩,
        y, axisMem_of_clip hy.1 hh hy0 hy1, hrow⟩
    · rintro ⟨⟨x, hxm, hcol⟩, y, hym, hrow⟩
      -- Outside the frame there is nothing to list.
      rcases hcond with hout | ⟨hex, hey⟩
      · have hinx := exists_axisMem_iff.mp ⟨x, hxm⟩
        have hiny := exists_axisMem_iff.mp ⟨y, hym⟩
        unfold DirtyRect.Outside at hout
        omega
      · obtain ⟨x', hx0, hx1, hx'⟩ := exists_clip_of_axisMem hex hxm
        obtain ⟨y', hy0, hy1, hy'⟩ := exists_clip_of_axisMem hey hym
        exact ⟨⟨x', hx0, hx1, hx'.trans hcol⟩, y', hy0, hy1, hy'.trans hrow⟩

/-- A rectangle that starts left of the frame and touches two of its tiles. -/
theorem tiles_for_rect_left : (DirtyRect.mk (-5) 40 40 20).InRange ∧
    ListsTiles 64 64 ⟨-5, 40, 40, 20⟩ ((TileGrid.new 64 64).tilesForRect ⟨-5, 40, 40, 20⟩) := by
  have hrect : (DirtyRect.mk (-5) 40 40 20).InRange := by constructor <;> decide
  refine ⟨hrect, (tiles_for_rect_iff 64 64 _ hrect).mpr (.inr ?_)⟩
  unfold AxisExact
  decide

/-- A rectangle that is `2^31 + 32` wide and ends in the frame, at 32: no tile is listed for it. -/
theorem not_lists_tiles : (DirtyRect.mk (-2 ^ 31) 0 (2 ^ 31 + 32) 32).InRange ∧
    ¬ListsTiles 64 64 ⟨-2 ^ 31, 0, 2 ^ 31 + 32, 32⟩
      ((TileGrid.new 64 64).tilesForRect ⟨-2 ^ 31, 0, 2 ^ 31 + 32, 32⟩) := by
  refine ⟨by constructor <;> decide, fun h => ?_⟩
  have hnil : (TileGrid.new 64 64).tilesForRect ⟨-2 ^ 31, 0, 2 ^ 31 + 32, 32⟩ = [] := by decide
  have hover : (TileCoord.mk 0 0).Overlaps 64 64 ⟨-2 ^ 31, 0, 2 ^ 31 + 32, 32⟩ :=
    ⟨0, by decide, 0, by decide, by decide, rfl, rfl⟩
  have hmem := (h.mem_iff _).mpr hover
  rw [hnil] at hmem
  exact absurd hmem List.not_mem_nil

/-! ## Merging -/

/-- The `i32` with the lower 32 bits of a number. -/
def wrapI32 (z : ℤ) : ℤ := z.bmod (2 ^ 32)

/-- The lower 64 bits of a number. -/
def asU64 (z : ℤ) : ℕ := (z % 2 ^ 64).toNat

/-- The corners of the bounding box of two rectangles. -/
structure Corners where
  /-- The left edge. -/
  x0 : ℤ
  /-- The upper edge. -/
  y0 : ℤ
  /-- The right edge. -/
  x1 : ℤ
  /-- The lower edge. -/
  y1 : ℤ

/-- The corners as `merge_damage_rects` computes them. -/
def corners (a b : DirtyRect) : Corners :=
  ⟨min a.x b.x, min a.y b.y,
    max (wrapI32 (a.x + asI32 a.width)) (wrapI32 (b.x + asI32 b.width)),
    max (wrapI32 (a.y + asI32 a.height)) (wrapI32 (b.y + asI32 b.height))⟩

/-- The comparison of `merge_damage_rects`. -/
def mergeTest (a b : DirtyRect) : Bool :=
  let c := corners a b
  let bboxArea := asU64 (asU64 (wrapI32 (c.x1 - c.x0)) * asU64 (wrapI32 (c.y1 - c.y0)))
  let sumArea := asU64 (asU64 (a.width * a.height) + asU64 (b.width * b.height))
  asU64 (bboxArea * 10) < asU64 (sumArea * 13)

/-- The rectangle that replaces two that are merged. -/
def boundingBox (a b : DirtyRect) : DirtyRect :=
  let c := corners a b
  ⟨c.x0, c.y0, (wrapI32 (c.x1 - c.x0) % 2 ^ 32).toNat, (wrapI32 (c.y1 - c.y0) % 2 ^ 32).toNat⟩

/-- `Vec::swap_remove`. -/
def swapRemove {α : Type*} (l : List α) (j : ℕ) : List α :=
  match l.getLast? with
  | none => []
  | some last => (l.set j last).dropLast

/-- The variables of the loops of `merge_damage_rects`. -/
structure MergeState where
  /-- The rectangles. -/
  current : List DirtyRect
  /-- The first rectangle of the pair. -/
  i : ℕ
  /-- The second rectangle of the pair. -/
  j : ℕ
  /-- There was a merge in this round. -/
  mergedAny : Bool

/-- One pass: a comparison, or the end of a loop. -/
def mergeBody (st : MergeState) : MergeState ⊕ List DirtyRect :=
  if hi : st.i < st.current.length then
    if hj : st.j < st.current.length then
      let a := st.current[st.i]
      let b := st.current[st.j]
      if mergeTest a b then
        .inl ⟨swapRemove (st.current.set st.i (boundingBox a b)) st.j, st.i, st.i + 1, true⟩
      else .inl { st with j := st.j + 1 }
    else .inl { st with i := st.i + 1, j := st.i + 2 }
  else if st.mergedAny then .inl { st with i := 0, j := 1, mergedAny := false }
  else .inr st.current

/-- What a pass that goes on can do. -/
inductive MergeStep (st : MergeState) : MergeState → Prop
  /-- Two rectangles are merged. -/
  | merge (hi : st.i < st.current.length) (hj : st.j < st.current.length)
      (htest : mergeTest st.current[st.i] st.current[st.j] = true) :
      MergeStep st ⟨swapRemove (st.current.set st.i
        (boundingBox st.current[st.i] st.current[st.j])) st.j, st.i, st.i + 1, true⟩
  /-- Two rectangles are left as they are. -/
  | refuse (hi : st.i < st.current.length) (hj : st.j < st.current.length)
      (htest : mergeTest st.current[st.i] st.current[st.j] = false) :
      MergeStep st { st with j := st.j + 1 }
  /-- The pairs of a rectangle are done. -/
  | next (hi : st.i < st.current.length) (hj : st.current.length ≤ st.j) :
      MergeStep st { st with i := st.i + 1, j := st.i + 2 }
  /-- The round is done and had a merge. -/
  | again (hi : st.current.length ≤ st.i) (hmerged : st.mergedAny = true) :
      MergeStep st { st with i := 0, j := 1, mergedAny := false }

/-- A pass of the loop is a step of merging. -/
theorem mergeStep_of_body {st st' : MergeState} (h : mergeBody st = .inl st') :
    MergeStep st st' := by
  -- Each branch of the loop is one kind of step.
  unfold mergeBody at h
  split at h
  · next hi =>
    split at h
    · next hj =>
      dsimp only at h
      split at h
      · next htest =>
        cases h
        exact .merge hi hj htest
      · next htest =>
        cases h
        exact .refuse hi hj (by simpa using htest)
    · next hj =>
      cases h
      exact .next hi (not_lt.mp hj)
  · next hi =>
    split at h
    · next hmerged =>
      cases h
      exact .again (not_lt.mp hi) hmerged
    · cases h

/-- The loop is left after a round without a merge. -/
theorem mergeBody_inr {st : MergeState} {out : List DirtyRect} (h : mergeBody st = .inr out) :
    out = st.current ∧ st.current.length ≤ st.i ∧ st.mergedAny = false := by
  unfold mergeBody at h
  split at h
  · split at h
    · dsimp only at h
      split at h <;> cases h
    · cases h
  · next hi =>
    split at h
    · cases h
    · next hmerged =>
      cases h
      exact ⟨rfl, not_lt.mp hi, by simpa using hmerged⟩

/-- One element is removed. -/
theorem length_swapRemove {α : Type*} {l : List α} (j : ℕ) :
    (swapRemove l j).length = l.length - 1 := by
  unfold swapRemove
  cases hlast : l.getLast? with
  | none => simp [List.getLast?_eq_none_iff.mp hlast]
  | some last => simp

/-- The loops, with what gets smaller: the number of rectangles, whether a round had a merge, and
the pairs that are left. -/
def mergeLoop : Loop MergeState (List DirtyRect) (ℕ × ℕ × ℕ) where
  body := mergeBody
  measure st := (2 * st.current.length + st.mergedAny.toNat, st.current.length - st.i,
    st.current.length - st.j)
  decreases st st' h := by
    cases mergeStep_of_body h with
    | merge hi hj htest =>
      apply Prod.Lex.left
      show 2 * (swapRemove _ _).length + 1 < 2 * st.current.length + st.mergedAny.toNat
      rw [length_swapRemove, List.length_set]
      omega
    | refuse hi hj htest =>
      apply Prod.Lex.right
      apply Prod.Lex.right
      show st.current.length - (st.j + 1) < st.current.length - st.j
      omega
    | next hi hj =>
      apply Prod.Lex.right
      apply Prod.Lex.left
      show st.current.length - (st.i + 1) < st.current.length - st.i
      omega
    | again hi hmerged =>
      apply Prod.Lex.left
      show 2 * st.current.length + 0 < 2 * st.current.length + st.mergedAny.toNat
      rw [hmerged]
      exact Nat.lt_succ_self _

/-- The rectangles that are not discarded at the start. -/
def DirtyRect.HasArea (r : DirtyRect) : Bool := r.width > 0 && r.height > 0

/-- `merge_damage_rects` before its first comparison. -/
def mergeStart (rects : List DirtyRect) : MergeState :=
  ⟨rects.filter DirtyRect.HasArea, 0, 1, false⟩

/-- `merge_damage_rects`. -/
def mergeDamageRects (rects : List DirtyRect) : List DirtyRect := mergeLoop.run (mergeStart rects)

/-! ### Without wrapping -/

namespace DirtyRect

/-- The pixels of a rectangle. -/
def pixels (r : DirtyRect) : Set (ℤ × ℤ) :=
  Set.Ico r.x (r.x + r.width) ×ˢ Set.Ico r.y (r.y + r.height)

/-- The number of its pixels. -/
def area (r : DirtyRect) : ℕ := r.width * r.height

/-- The smallest rectangle around two. -/
def hull (a b : DirtyRect) : DirtyRect :=
  ⟨min a.x b.x, min a.y b.y, (max (a.x + a.width) (b.x + b.width) - min a.x b.x).toNat,
    (max (a.y + a.height) (b.y + b.height) - min a.y b.y).toNat⟩

/-- The bounding box of two rectangles is less than 1.3 times as large as they are together. -/
def Mergeable (a b : DirtyRect) : Prop := 10 * (hull a b).area < 13 * (a.area + b.area)

/-- Whether two rectangles are merged can be decided. -/
instance (a b : DirtyRect) : Decidable (Mergeable a b) := inferInstanceAs (Decidable (_ < _))

/-- The products that are compared fit `u64`. -/
def Fits (a b : DirtyRect) : Prop :=
  10 * (hull a b).area < 2 ^ 64 ∧ 13 * (a.area + b.area) < 2 ^ 64

/-- A hull covers the first rectangle. -/
theorem pixels_subset_hull_left (a b : DirtyRect) : a.pixels ⊆ (hull a b).pixels := by
  rintro ⟨x, y⟩ ⟨⟨hx0, hx1⟩, hy0, hy1⟩
  simp only [hull, pixels, Set.mem_prod, Set.mem_Ico] at *
  omega

/-- The hull does not depend on the order. -/
theorem hull_comm (a b : DirtyRect) : hull a b = hull b a := by
  unfold hull
  rw [min_comm a.x, min_comm a.y, max_comm (a.x + a.width), max_comm (a.y + a.height)]

/-- It covers the second one. -/
theorem pixels_subset_hull_right (a b : DirtyRect) : b.pixels ⊆ (hull a b).pixels := by
  rw [hull_comm]
  exact pixels_subset_hull_left b a

end DirtyRect

/-- A part of the plane whose coordinates and distances fit `i32`. -/
structure Window where
  /-- The left edge. -/
  left : ℤ
  /-- The upper edge. -/
  top : ℤ
  /-- The right edge. -/
  right : ℤ
  /-- The lower edge. -/
  bottom : ℤ
  /-- The left edge is an `i32`. -/
  left_ge : -2 ^ 31 ≤ left
  /-- The upper edge is an `i32`. -/
  top_ge : -2 ^ 31 ≤ top
  /-- The right edge is an `i32`. -/
  right_lt : right < 2 ^ 31
  /-- The lower edge is an `i32`. -/
  bottom_lt : bottom < 2 ^ 31
  /-- The width is an `i32`. -/
  width_lt : right - left < 2 ^ 31
  /-- The height is an `i32`. -/
  height_lt : bottom - top < 2 ^ 31

/-- A rectangle lies in a window. -/
structure Window.Holds (w : Window) (r : DirtyRect) : Prop where
  /-- Its left edge does. -/
  left_le : w.left ≤ r.x
  /-- Its upper edge does. -/
  top_le : w.top ≤ r.y
  /-- Its right edge does. -/
  le_right : r.x + r.width ≤ w.right
  /-- Its lower edge does. -/
  le_bottom : r.y + r.height ≤ w.bottom

/-- A number within 32 bits is left as it is. -/
theorem wrapI32_of_mem {z : ℤ} (hlo : -2 ^ 31 ≤ z) (hhi : z < 2 ^ 31) : wrapI32 z = z := by
  unfold wrapI32
  exact Int.bmod_eq_of_le_mul_two (by omega) (by omega)

/-- A number below `2 ^ 64` is left as it is. -/
theorem asU64_of_lt {n : ℕ} (h : n < 2 ^ 64) : asU64 n = n := by
  unfold asU64
  omega

section Pair

variable {w : Window} {a b : DirtyRect} (ha : w.Holds a) (hb : w.Holds b)

include ha hb

/-- The rectangle around two of a window lies in it. -/
theorem Window.Holds.hull : w.Holds (a.hull b) := by
  obtain ⟨hal, hat, har, hab⟩ := ha
  obtain ⟨hbl, hbt, hbr, hbb⟩ := hb
  constructor <;> dsimp only [DirtyRect.hull] <;> omega

/-- The corners are those of the smallest rectangle around both. -/
theorem corners_eq : corners a b =
    ⟨min a.x b.x, min a.y b.y, max (a.x + a.width) (b.x + b.width),
      max (a.y + a.height) (b.y + b.height)⟩ := by
  obtain ⟨hal, hat, har, hab⟩ := ha
  obtain ⟨hbl, hbt, hbr, hbb⟩ := hb
  obtain ⟨left, top, right, bottom, hleft, htop, hright, hbottom, hwidth, hheight⟩ := w
  dsimp only at *
  unfold corners
  rw [asI32_of_lt (by omega : a.width < 2 ^ 31), asI32_of_lt (by omega : a.height < 2 ^ 31),
    asI32_of_lt (by omega : b.width < 2 ^ 31), asI32_of_lt (by omega : b.height < 2 ^ 31),
    wrapI32_of_mem (by omega) (by omega), wrapI32_of_mem (by omega) (by omega),
    wrapI32_of_mem (by omega) (by omega), wrapI32_of_mem (by omega) (by omega)]

/-- Its sides are below `2^31`. -/
theorem hull_sides : (a.hull b).width < 2 ^ 31 ∧ (a.hull b).height < 2 ^ 31 ∧
    wrapI32 ((corners a b).x1 - (corners a b).x0) = (a.hull b).width ∧
      wrapI32 ((corners a b).y1 - (corners a b).y0) = (a.hull b).height := by
  rw [corners_eq ha hb]
  obtain ⟨hal, hat, har, hab⟩ := ha
  obtain ⟨hbl, hbt, hbr, hbb⟩ := hb
  obtain ⟨left, top, right, bottom, hleft, htop, hright, hbottom, hwidth, hheight⟩ := w
  dsimp only [DirtyRect.hull] at *
  rw [wrapI32_of_mem (by omega) (by omega), wrapI32_of_mem (by omega) (by omega)]
  omega

/-- The bounding box is the hull. -/
theorem boundingBox_eq_hull : boundingBox a b = a.hull b := by
  obtain ⟨hw, hh, hx, hy⟩ := hull_sides ha hb
  unfold boundingBox
  dsimp only
  rw [hx, hy, corners_eq ha hb]
  have hwidth : ((a.hull b).width % 2 ^ 32 : ℤ).toNat = (a.hull b).width := by omega
  have hheight : ((a.hull b).height % 2 ^ 32 : ℤ).toNat = (a.hull b).height := by omega
  rw [hwidth, hheight]
  rfl

/-- The comparison is the criterion when nothing wraps in `u64`. -/
theorem mergeTest_iff (hfits : a.Fits b) : mergeTest a b = true ↔ a.Mergeable b := by
  obtain ⟨hw, hh, hx, hy⟩ := hull_sides ha hb
  obtain ⟨hbox, hsum⟩ := hfits
  unfold DirtyRect.area at hbox hsum
  unfold mergeTest
  dsimp only
  rw [hx, hy, asU64_of_lt (by omega : (a.hull b).width < 2 ^ 64),
    asU64_of_lt (by omega : (a.hull b).height < 2 ^ 64), decide_eq_true_iff]
  norm_cast
  rw [asU64_of_lt (by omega : a.width * a.height < 2 ^ 64),
    asU64_of_lt (by omega : b.width * b.height < 2 ^ 64),
    asU64_of_lt (by omega : (a.hull b).width * (a.hull b).height < 2 ^ 64),
    asU64_of_lt (by omega : a.width * a.height + b.width * b.height < 2 ^ 64),
    asU64_of_lt (by omega), asU64_of_lt (by omega), Nat.mul_comm _ 10, Nat.mul_comm _ 13]
  rfl

end Pair

/-! ### Runs -/

/-- What is left after `swap_remove` was in the list. -/
theorem mem_of_mem_swapRemove {α : Type*} {l : List α} {j : ℕ} {r : α}
    (h : r ∈ swapRemove l j) : r ∈ l := by
  unfold swapRemove at h
  cases hlast : l.getLast? with
  | none => simp [hlast] at h
  | some last =>
    rw [hlast] at h
    rcases List.mem_or_eq_of_mem_set (List.mem_of_mem_dropLast h) with hr | rfl
    · exact hr
    · exact List.mem_of_getLast? hlast

/-- `swap_remove` keeps all but the place that it removes. -/
theorem getElem_mem_swapRemove {α : Type*} {l : List α} {j k : ℕ} (hj : j < l.length)
    (hk : k < l.length) (hne : k ≠ j) : l[k] ∈ swapRemove l j := by
  have hnil : l ≠ [] := List.ne_nil_of_length_pos (by omega)
  unfold swapRemove
  rw [List.getLast?_eq_some_getLast hnil]
  dsimp only
  rcases Nat.lt_or_ge k (l.length - 1) with hlt | hge
  · have hget : ((l.set j (l.getLast hnil)).dropLast)[k]? = some l[k] := by
      rw [List.getElem?_dropLast]
      simp [hne.symm, hlt, hk]
    exact List.mem_of_getElem? hget
  · -- The last one is at the place of the one removed.
    have hget : ((l.set j (l.getLast hnil)).dropLast)[j]? = some l[k] := by
      have hlast : l[k] = l.getLast hnil := by
        rw [List.getLast_eq_getElem]
        congr 1
        omega
      rw [List.getElem?_dropLast, hlast]
      simp [hj, (by omega : j < l.length - 1)]
    exact List.mem_of_getElem? hget

/-- The rectangles after a merge. -/
theorem mem_of_mem_merge {l : List DirtyRect} {i j : ℕ} {box r : DirtyRect}
    (h : r ∈ swapRemove (l.set i box) j) : r ∈ l ∨ r = box :=
  List.mem_or_eq_of_mem_set (mem_of_mem_swapRemove h)

/-- No comparison of a state wraps. -/
def MergeState.Fits (st : MergeState) : Prop :=
  ∀ a ∈ st.current[st.i]?, ∀ b ∈ st.current[st.j]?, a.Fits b

/-- No pixel of the rectangles at the start is lost, none of the rectangles left is outside of the
window, and there are not more of them. -/
structure Keeps (w : Window) (rects current : List DirtyRect) : Prop where
  /-- The rectangles are in the window. -/
  holds : ∀ r ∈ current, w.Holds r
  /-- Their pixels are still covered. -/
  covers : ∀ r ∈ rects, ∀ p ∈ r.pixels, ∃ r' ∈ current, p ∈ r'.pixels
  /-- There are not more of them. -/
  length_le : current.length ≤ rects.length

/-- A merge loses no pixel. -/
theorem Keeps.merge {w : Window} {rects current : List DirtyRect} (h : Keeps w rects current)
    {i j : ℕ} (hij : i < j) (hi : i < current.length) (hj : j < current.length) :
    Keeps w rects (swapRemove (current.set i (boundingBox current[i] current[j])) j) := by
  have ha := h.holds _ (List.getElem_mem hi)
  have hb := h.holds _ (List.getElem_mem hj)
  rw [boundingBox_eq_hull ha hb]
  generalize hbox : current[i].hull current[j] = box
  have hbox_mem : box ∈ swapRemove (current.set i box) j := by
    have hmem := getElem_mem_swapRemove (l := current.set i box) (j := j) (k := i)
      (by simpa using hj) (by simpa using hi) hij.ne
    simpa using hmem
  refine ⟨fun r hr => ?_, fun r hr p hp => ?_, ?_⟩
  · rcases mem_of_mem_merge hr with hr | rfl
    · exact h.holds r hr
    · rw [← hbox]
      exact ha.hull hb
  · obtain ⟨r', hr', hp'⟩ := h.covers r hr p hp
    obtain ⟨k, hk, rfl⟩ := List.getElem_of_mem hr'
    -- The rectangle is one of the two that are merged, or still there.
    by_cases hki : k = i
    · subst hki
      exact ⟨box, hbox_mem, hbox ▸ DirtyRect.pixels_subset_hull_left _ _ hp'⟩
    · by_cases hkj : k = j
      · subst hkj
        exact ⟨box, hbox_mem, hbox ▸ DirtyRect.pixels_subset_hull_right _ _ hp'⟩
      · refine ⟨current[k], ?_, hp'⟩
        have hmem := getElem_mem_swapRemove (l := current.set i box) (j := j) (k := k)
          (by simpa using hj) (by simpa using hk) hkj
        simpa [Ne.symm hki] using hmem
  · rw [length_swapRemove, List.length_set]
    have := h.length_le
    omega

/-- What holds in every state of a run. -/
structure MergeInv (w : Window) (rects : List DirtyRect) (st : MergeState) : Prop where
  /-- The rectangles keep those at the start. -/
  keeps : Keeps w rects st.current
  /-- The second rectangle comes after the first. -/
  lt : st.i < st.j

/-- The pairs that a round without a merge has compared are not to be merged. -/
def MergeState.Compared (st : MergeState) : Prop :=
  st.mergedAny = false → ∀ k m, k < m → ∀ a ∈ st.current[k]?, ∀ b ∈ st.current[m]?,
    k < st.i ∨ k = st.i ∧ m < st.j → ¬a.Mergeable b

/-- What holds too when no comparison wraps. -/
structure ComparedInv (w : Window) (rects : List DirtyRect) (st : MergeState) : Prop
    extends MergeInv w rects st where
  /-- The pairs that were compared are not to be merged. -/
  compared : st.Compared

/-- A step of the loop keeps the invariant. -/
theorem MergeInv.step {w : Window} {rects : List DirtyRect} {st st' : MergeState}
    (h : MergeInv w rects st) (hstep : mergeLoop.body st = .inl st') : MergeInv w rects st' := by
  cases mergeStep_of_body hstep with
  | merge hi hj htest => exact ⟨h.keeps.merge h.lt hi hj, Nat.lt_succ_self _⟩
  | refuse hi hj htest => exact ⟨h.keeps, Nat.lt_succ_of_lt h.lt⟩
  | next hi hj => exact ⟨h.keeps, Nat.lt_succ_self _⟩
  | again hi hmerged => exact ⟨h.keeps, Nat.zero_lt_one⟩

/-- And which pairs were compared. -/
theorem ComparedInv.step {w : Window} {rects : List DirtyRect} {st st' : MergeState}
    (h : ComparedInv w rects st) (hfits : st.Fits) (hstep : mergeLoop.body st = .inl st') :
    ComparedInv w rects st' := by
  refine ⟨h.toMergeInv.step hstep, ?_⟩
  cases mergeStep_of_body hstep with
  -- Nothing is claimed of a pass that has merged.
  | merge hi hj htest => intro hmerged; cases hmerged
  | refuse hi hj htest =>
    intro hmerged k m hkm a ha b hb hplace
    dsimp only at hmerged ha hb hplace
    by_cases hnew : k = st.i ∧ m = st.j
    · -- The pair that was compared just now.
      obtain ⟨rfl, rfl⟩ := hnew
      have hpair := hfits a ha b hb
      obtain ⟨_, rfl⟩ := List.getElem?_eq_some_iff.mp ha
      obtain ⟨_, rfl⟩ := List.getElem?_eq_some_iff.mp hb
      rw [← mergeTest_iff (h.keeps.holds _ (List.getElem_mem hi))
        (h.keeps.holds _ (List.getElem_mem hj)) hpair, htest]
      exact Bool.false_ne_true
    · exact h.compared hmerged k m hkm a ha b hb (by omega)
  | next hi hj =>
    intro hmerged k m hkm a ha b hb hplace
    dsimp only at hmerged ha hb hplace
    have hm := (List.getElem?_eq_some_iff.mp hb).1
    exact h.compared hmerged k m hkm a ha b hb (by omega)
  -- The new pass has compared nothing yet.
  | again hi hmerged =>
    intro _ k m hkm a ha b hb hplace
    dsimp only at hplace
    omega

/-- The start of a run keeps what it was given. -/
theorem mergeInv_start {w : Window} {rects : List DirtyRect}
    (hrects : ∀ r ∈ rects, r.HasArea → w.Holds r) : MergeInv w rects (mergeStart rects) := by
  refine ⟨⟨fun r hr => ?_, fun r hr p hp => ?_, List.length_filter_le _ _⟩, Nat.zero_lt_one⟩
  · obtain ⟨hr, harea⟩ := List.mem_filter.mp hr
    exact hrects r hr harea
  · -- A rectangle with a pixel is not discarded.
    refine ⟨r, List.mem_filter.mpr ⟨hr, ?_⟩, hp⟩
    obtain ⟨⟨hx0, hx1⟩, hy0, hy1⟩ := hp
    simp only [DirtyRect.HasArea, Bool.and_eq_true, decide_eq_true_eq]
    omega

/-- The area of a rectangle is at most that of a window that holds it. -/
theorem Window.Holds.area_le {w : Window} {r : DirtyRect} (h : w.Holds r) :
    (r.area : ℤ) ≤ (w.right - w.left) * (w.bottom - w.top) := by
  obtain ⟨hleft, htop, hright, hbottom⟩ := h
  rw [DirtyRect.area, Nat.cast_mul]
  exact mul_le_mul (by omega) (by omega) (by omega) (by omega)

/-- No comparison wraps in a window whose area times 26 fits `u64`. -/
theorem fits_of_window {w : Window} {rects : List DirtyRect}
    (hrects : ∀ r ∈ rects, r.HasArea → w.Holds r)
    (harea : 26 * ((w.right - w.left) * (w.bottom - w.top)) < 2 ^ 64) {st : MergeState}
    (hreach : mergeLoop.Reaches (mergeStart rects) st) : st.Fits := by
  have hinv := hreach.invariant (fun _ _ h hstep => MergeInv.step h hstep) (mergeInv_start hrects)
  intro a ha b hb
  have hwa := hinv.keeps.holds a (List.mem_of_getElem? ha)
  have hwb := hinv.keeps.holds b (List.mem_of_getElem? hb)
  have hhull := (hwa.hull hwb).area_le
  have hareaa := hwa.area_le
  have hareab := hwb.area_le
  constructor <;> omega

/-- The rectangles that are left cover the pixels of those given and are not more, and when no
comparison of the run wraps, none of them are still to be merged. -/
theorem merge_damage_rects_spec (w : Window) (rects : List DirtyRect)
    (hrects : ∀ r ∈ rects, r.HasArea → w.Holds r) :
    (∀ r ∈ rects, ∀ p ∈ r.pixels, ∃ r' ∈ mergeDamageRects rects, p ∈ r'.pixels) ∧
      (mergeDamageRects rects).length ≤ rects.length ∧
      ((∀ st, mergeLoop.Reaches (mergeStart rects) st → st.Fits) →
        (mergeDamageRects rects).Pairwise fun a b => ¬a.Mergeable b) := by
  have hkeeps : Keeps w rects (mergeDamageRects rects) := by
    refine Loop.run_induction (mergeInv_start hrects) (fun _ _ _ h hstep => h.step hstep) ?_
    intro st out _ h hout
    obtain ⟨rfl, -⟩ := mergeBody_inr hout
    exact h.keeps
  refine ⟨hkeeps.covers, hkeeps.length_le, fun hfits => ?_⟩
  have hstart : ComparedInv w rects (mergeStart rects) := by
    refine ⟨mergeInv_start hrects, fun _ k m _ a _ b _ hplace => ?_⟩
    dsimp only [mergeStart] at hplace
    omega
  refine Loop.run_induction hstart (fun st _ hreach h hstep => h.step (hfits st hreach) hstep) ?_
  -- The last round had no merge and has compared all pairs.
  intro st out _ h hout
  obtain ⟨rfl, hdone, hmerged⟩ := mergeBody_inr hout
  rw [List.pairwise_iff_getElem]
  intro k m hk hm hkm
  exact h.compared hmerged k m hkm _ (List.getElem?_eq_getElem hk) _ (List.getElem?_eq_getElem hm)
    (.inl (hk.trans_le hdone))

/-- A screen of 1000 by 1000 pixels. -/
def smallWindow : Window where
  left := 0
  top := 0
  right := 1000
  bottom := 1000
  left_ge := by decide
  top_ge := by decide
  right_lt := by decide
  bottom_lt := by decide
  width_lt := by decide
  height_lt := by decide

/-- Three rectangles on a screen, two of which overlap. -/
theorem merge_damage_rects_small :
    (mergeDamageRects [⟨0, 0, 10, 10⟩, ⟨5, 0, 10, 10⟩, ⟨100, 100, 5, 5⟩]).length ≤ 3 ∧
      (mergeDamageRects [⟨0, 0, 10, 10⟩, ⟨5, 0, 10, 10⟩, ⟨100, 100, 5, 5⟩]).Pairwise
        fun a b => ¬a.Mergeable b := by
  have hrects : ∀ r ∈ [(⟨0, 0, 10, 10⟩ : DirtyRect), ⟨5, 0, 10, 10⟩, ⟨100, 100, 5, 5⟩],
      r.HasArea → smallWindow.Holds r := by
    simp only [List.forall_mem_cons, List.not_mem_nil, false_implies, implies_true, and_true]
    refine ⟨fun _ => ?_, fun _ => ?_, fun _ => ?_⟩ <;> constructor <;> decide
  obtain ⟨-, hlen, hsettled⟩ := merge_damage_rects_spec smallWindow _ hrects
  exact ⟨hlen, hsettled fun st hreach => fits_of_window hrects (by decide) hreach⟩

/-- The largest square whose sides fit `i32`. -/
def largeRect : DirtyRect := ⟨0, 0, 2 ^ 31 - 1, 2 ^ 31 - 1⟩

/-- The square twice: ten times the area wraps to more than 26 times the area does, so the two are
not merged. -/
theorem not_merge_settled : largeRect.x + largeRect.width < 2 ^ 31 ∧
    largeRect.y + largeRect.height < 2 ^ 31 ∧
    ¬(mergeDamageRects [largeRect, largeRect]).Pairwise fun a b => ¬a.Mergeable b := by
  have hrun : mergeDamageRects [largeRect, largeRect] = [largeRect, largeRect] := by
    have h0 : mergeLoop.body (mergeStart [largeRect, largeRect]) =
      .inl ⟨[largeRect, largeRect], 0, 2, false⟩ := by rfl
    have h1 : mergeLoop.body ⟨[largeRect, largeRect], 0, 2, false⟩ =
      .inl ⟨[largeRect, largeRect], 1, 2, false⟩ := rfl
    have h2 : mergeLoop.body ⟨[largeRect, largeRect], 1, 2, false⟩ =
      .inl ⟨[largeRect, largeRect], 2, 3, false⟩ := rfl
    have h3 : mergeLoop.body ⟨[largeRect, largeRect], 2, 3, false⟩ =
      .inr [largeRect, largeRect] := rfl
    rw [mergeDamageRects, Loop.run_of_inl h0, Loop.run_of_inl h1, Loop.run_of_inl h2,
      Loop.run_of_inr h3]
  rw [hrun]
  refine ⟨by decide, by decide, fun h => ?_⟩
  have hpair := List.rel_of_pairwise_cons h (List.mem_singleton.mpr rfl)
  exact hpair (by decide)

end LowBand.Platform
