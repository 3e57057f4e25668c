import LowBand.Lib.Lanes
import LowBand.Platform.TileClass
import LowBand.Platform.TileGrid
import Mathlib.Data.List.Induction

/-!
# What the screen encoder still has to send

`screen_encoder.rs` keeps two things between frames. `RefinementQueue` holds the tiles that wait for
their lossless pass, in a heap of entries that are numbered as they come; `refinementQueue_lanes`
says that this heap does, over any run, what four lanes of tiles do that are served text first and
video last. `VideoSubStream` holds one rectangle around the video tiles, and `takeDirtyRegion_iff`
says which rectangle it is and when it is handed out. Its edge and its size in pixels are computed
in `u32`, so they wrap in a release build for tiles that are far out, which the theorem leaves in.

A `BinaryHeap` is here the list of its entries: `pop` takes the greatest one, wherever it stands.
-/

namespace LowBand.Platform

open Lib

/-! ## The refinement queue -/

/-- `TileClass::saliency`. -/
def TileClass.saliency : TileClass → ℕ
  | .text => 3
  | .flat => 2
  | .picture => 1
  | .video => 0

/-- `QueueEntry`. -/
structure QueueEntry where
  /-- The saliency of the class. -/
  saliency : ℕ
  /-- The number of the entry, in the order they came. -/
  seq : ℕ
  /-- The tile. -/
  coord : TileCoord
  /-- The class of the tile. -/
  tileClass : TileClass
deriving DecidableEq

/-- `QueueEntry::cmp`. -/
def QueueEntry.cmp (a b : QueueEntry) : Ordering :=
  (compare a.saliency b.saliency).then (compare b.seq a.seq)

/-- `RefinementQueue`. -/
structure RefinementQueue where
  /-- The entries of the heap. -/
  heap : List QueueEntry
  /-- The number of the next entry. -/
  seq : ℕ

namespace RefinementQueue

/-- `RefinementQueue::new`. -/
def new : RefinementQueue := ⟨[], 0⟩

/-- `push`. -/
def push (q : RefinementQueue) (coord : TileCoord) (tileClass : TileClass) : RefinementQueue where
  heap := q.heap ++ [⟨tileClass.saliency, q.seq, coord, tileClass⟩]
  seq := q.seq + 1

/-- `pop`. -/
def pop (q : RefinementQueue) : Option (TileCoord × TileClass) × RefinementQueue :=
  match greatest (fun a b => (a.cmp b).isLE) q.heap with
  | none => (none, q)
  | some e => (some (e.coord, e.tileClass), { q with heap := q.heap.erase e })

/-- `len`. -/
def len (q : RefinementQueue) : ℕ := q.heap.length

/-- `is_empty`. -/
def isEmpty (q : RefinementQueue) : Bool := q.heap.isEmpty

/-- The queue under its calls; only `pop` answers. -/
def calls : Machine RefinementQueue (LaneOp TileClass TileCoord) (Option (TileClass × TileCoord))
  | q, .push c t => ([], q.push t c)
  | q, .pop => ([q.pop.1.map Prod.swap], q.pop.2)

/-- The order in which the classes are served. -/
def service : List TileClass := [.text, .flat, .picture, .video]

/-- The queue holds what these lanes hold. -/
structure Holds (q : RefinementQueue) (lanes : TileClass → List TileCoord) : Prop where
  /-- The entries stand in the order they came. -/
  sorted : q.heap.Pairwise fun a b => a.seq < b.seq
  /-- They came before the next one. -/
  seq_lt : ∀ e ∈ q.heap, e.seq < q.seq
  /-- Their saliency is that of their class. -/
  saliency_eq : ∀ e ∈ q.heap, e.saliency = e.tileClass.saliency
  /-- The lanes are those of the entries. -/
  lanes_eq : lanes = lanesOf QueueEntry.tileClass QueueEntry.coord q.heap

/-- Each class has its own saliency. -/
theorem saliency_injective : Function.Injective TileClass.saliency := by
  intro a b h
  cases a <;> cases b <;> first | rfl | exact absurd h (by decide)

/-- `QueueEntry::cmp` puts the saliency first, and the earlier entry above the later. -/
theorem cmp_isLE (a b : QueueEntry) : (a.cmp b).isLE ↔
    a.saliency < b.saliency ∨ a.saliency = b.saliency ∧ b.seq ≤ a.seq := by
  unfold QueueEntry.cmp
  rcases lt_trichotomy a.saliency b.saliency with hlt | heq | hgt
  · simp [compare_lt_iff_lt.mpr hlt, hlt]
  · simp [heq, Nat.isLE_compare]
  · simp [compare_gt_iff_gt.mpr hgt, hgt.not_gt, hgt.ne']

variable {q : RefinementQueue} {lanes : TileClass → List TileCoord}

/-- The heap orders its entries by class and then by arrival. -/
theorem Holds.ordersBy (h : Holds q lanes) :
    OrdersBy QueueEntry.tileClass QueueEntry.seq TileClass.saliency
      (fun a b : QueueEntry => (a.cmp b).isLE) q.heap := by
  intro a ha b hb
  show (a.cmp b).isLE ↔ _
  rw [cmp_isLE, h.saliency_eq a ha, h.saliency_eq b hb, saliency_injective.eq_iff]

/-- A push brings its tile into the lane of its class. -/
theorem Holds.push (h : Holds q lanes) (coord : TileCoord) (c : TileClass) :
    Holds (q.push coord c) (Function.update lanes c (lanes c ++ [coord])) where
  sorted := by
    refine List.pairwise_append.mpr ⟨h.sorted, List.pairwise_singleton _ _, ?_⟩
    intro a ha b hb
    rw [List.mem_singleton.mp hb]
    exact h.seq_lt a ha
  seq_lt := by
    intro e he
    rcases List.mem_append.mp he with he | he
    · exact (h.seq_lt e he).trans (Nat.lt_succ_self _)
    · rw [List.mem_singleton.mp he]
      exact Nat.lt_succ_self _
  saliency_eq := by
    intro e he
    rcases List.mem_append.mp he with he | he
    · exact h.saliency_eq e he
    · rw [List.mem_singleton.mp he]
  lanes_eq := by
    funext i
    show _ = (ofKey QueueEntry.tileClass i (q.heap ++ [_])).map QueueEntry.coord
    rw [h.lanes_eq, ofKey_append, List.map_append]
    -- Only the lane of the class gets the tile, at its end.
    by_cases hi : i = c
    · subst hi
      rw [Function.update_self]
      simp [lanesOf, ofKey]
    · rw [Function.update_of_ne hi]
      simp [lanesOf, ofKey, Ne.symm hi]

/-- A pop answers what the lanes serve, and leaves what they leave. -/
theorem Holds.pop (h : Holds q lanes) :
    q.pop.1.map Prod.swap = Lanes.front lanes service ∧
      Holds q.pop.2 (Lanes.dropFront lanes (Lanes.front lanes service)) := by
  have hfall : service.Pairwise fun c d => d.saliency < c.saliency := by decide
  have hall : ∀ c, c ∈ service := by intro c; cases c <;> decide
  have hfront : Lanes.front (lanesOf QueueEntry.tileClass QueueEntry.coord q.heap) service = _ :=
    greatest_eq_front h.ordersBy h.sorted saliency_injective hfall hall
  rw [← h.lanes_eq] at hfront
  rw [hfront, RefinementQueue.pop]
  cases hgreatest : greatest (fun a b : QueueEntry => (a.cmp b).isLE) q.heap with
  | none => exact ⟨rfl, h⟩
  | some e =>
    have hsub : (q.heap.erase e).Sublist q.heap := List.erase_sublist
    refine ⟨rfl, h.sorted.sublist hsub, fun a ha => h.seq_lt a (hsub.subset ha),
      fun a ha => h.saliency_eq a (hsub.subset ha), ?_⟩
    rw [h.lanes_eq]
    exact (lanesOf_erase_greatest h.ordersBy h.sorted hgreatest).symm

/-- The number of the entries is that of the tiles in the lanes. -/
theorem Holds.len_eq (h : Holds q lanes) :
    q.len = (service.map fun c => (lanes c).length).sum := by
  have hperm : (service.flatMap fun c => ofKey QueueEntry.tileClass c q.heap).Perm q.heap :=
    flatMap_ofKey_perm (by decide) (by intro c; cases c <;> decide) q.heap
  rw [len, ← hperm.length_eq, List.length_flatMap, h.lanes_eq]
  simp [lanesOf]

/-- Over any run of calls, the heap answers as four lanes do, one for each class, of which the first
in the order of service that is not empty gives up its first tile. So tiles of one class leave in
the order they came, and the queue's length is that of the lanes together. -/
theorem refinementQueue_lanes (ops : List (LaneOp TileClass TileCoord)) :
    let lanes := (Lanes.serve service).finish (fun _ => []) ops
    calls.emitted new ops = (Lanes.serve service).emitted (fun _ => []) ops ∧
      (∀ c, Lanes.served c (calls.emitted new ops) ++ lanes c = Lanes.arrivals c ops) ∧
      (calls.finish new ops).len = (service.map fun c => (lanes c).length).sum := by
  have hnew : Holds new fun _ => [] := ⟨.nil, by simp [new], by simp [new], rfl⟩
  have hstep : ∀ op ∈ ops, ∀ q lanes, Holds q lanes →
      (calls q op).1 = (Lanes.serve service lanes op).1 ∧
        Holds (calls q op).2 (Lanes.serve service lanes op).2 := by
    intro op _ q lanes h
    cases op with
    | push c t => exact ⟨rfl, h.push t c⟩
    | pop =>
      obtain ⟨hanswer, hnext⟩ := h.pop
      exact ⟨congrArg (fun o => [o]) hanswer, hnext⟩
  obtain ⟨hemitted, hlast⟩ := Machine.simulation Holds hstep hnew
  refine ⟨hemitted, fun c => ?_, hlast.len_eq⟩
  rw [hemitted, Lanes.drains, List.nil_append]

end RefinementQueue

/-! ## The video sub-stream -/

/-- `TileRect`: columns and rows of tiles, both ends included. -/
structure TileRect where
  /-- The leftmost column. -/
  colMin : ℕ
  /-- The top row. -/
  rowMin : ℕ
  /-- The rightmost column. -/
  colMax : ℕ
  /-- The bottom row. -/
  rowMax : ℕ
deriving DecidableEq

namespace TileRect

/-- `cols`. -/
def cols (r : TileRect) : ℕ := asU32 (asU32 (r.colMax + 2 ^ 32 - r.colMin) + 1)

/-- `rows`. -/
def rows (r : TileRect) : ℕ := asU32 (asU32 (r.rowMax + 2 ^ 32 - r.rowMin) + 1)

/-- `x_px`. -/
def xPx (r : TileRect) : ℕ := asU32 (r.colMin * tileSizePx)

/-- `y_px`. -/
def yPx (r : TileRect) : ℕ := asU32 (r.rowMin * tileSizePx)

/-- `width_px`. -/
def widthPx (r : TileRect) : ℕ := asU32 (r.cols * tileSizePx)

/-- `height_px`. -/
def heightPx (r : TileRect) : ℕ := asU32 (r.rows * tileSizePx)

/-- The pixels of a tile lie in the rectangle, by its edge and its size in pixels. -/
def HasPixels (r : TileRect) (c : TileCoord) : Prop :=
  (r.xPx ≤ c.col * tileSizePx ∧ (c.col + 1) * tileSizePx ≤ r.xPx + r.widthPx) ∧
    r.yPx ≤ c.row * tileSizePx ∧ (c.row + 1) * tileSizePx ≤ r.yPx + r.heightPx

/-- Its edge and its size in pixels fit in 32 bits. -/
def Fits (r : TileRect) : Prop :=
  (r.colMin < 2 ^ 27 ∧ r.colMax + 1 < r.colMin + 2 ^ 27) ∧
    r.rowMin < 2 ^ 27 ∧ r.rowMax + 1 < r.rowMin + 2 ^ 27

/-- A tile lies in the rectangle. -/
def Contains (r : TileRect) (c : TileCoord) : Prop :=
  (r.colMin ≤ c.col ∧ c.col ≤ r.colMax) ∧ r.rowMin ≤ c.row ∧ c.row ≤ r.rowMax

/-- A rectangle lies in another one. -/
instance : LE TileRect where
  le r s := (s.colMin ≤ r.colMin ∧ r.colMax ≤ s.colMax) ∧ s.rowMin ≤ r.rowMin ∧ r.rowMax ≤ s.rowMax

/-- The rectangle of one tile. -/
def single (c : TileCoord) : TileRect := ⟨c.col, c.row, c.col, c.row⟩

/-- The rectangle, extended to a tile. -/
def extend (r : TileRect) (c : TileCoord) : TileRect :=
  ⟨min r.colMin c.col, min r.rowMin c.row, max r.colMax c.col, max r.rowMax c.row⟩

end TileRect

/-- `VideoSubStream`. -/
structure VideoSubStream where
  /-- The rectangle around the tiles. -/
  region : Option TileRect
  /-- A tile has come since the rectangle was taken. -/
  dirty : Bool

/-- A call of the sub-stream. -/
inductive VideoCall where
  /-- A tile comes. -/
  | push (coord : TileCoord)
  /-- The rectangle is taken. -/
  | take
  /-- The tiles are discarded. -/
  | reset

namespace VideoSubStream

/-- `VideoSubStream::new`. -/
def new : VideoSubStream := ⟨none, false⟩

/-- `push`. -/
def push (v : VideoSubStream) (coord : TileCoord) : VideoSubStream where
  region :=
    match v.region with
    | none => some (.single coord)
    | some r => some (r.extend coord)
  dirty := true

/-- `take_dirty_region`. -/
def takeDirtyRegion (v : VideoSubStream) : Option TileRect × VideoSubStream :=
  if v.dirty then (v.region, { v with dirty := false }) else (none, v)

/-- `reset`. -/
def reset (_ : VideoSubStream) : VideoSubStream := ⟨none, false⟩

/-- The sub-stream under its calls. -/
def calls : Machine VideoSubStream VideoCall (Option TileRect)
  | v, .push c => ([], v.push c)
  | v, .take => ([v.takeDirtyRegion.1], v.takeDirtyRegion.2)
  | v, .reset => ([], v.reset)

/-- The tiles that have come since the last reset. -/
def registered (cs : List VideoCall) : List TileCoord :=
  cs.foldl (fun tiles call =>
    match call with
    | .push c => tiles ++ [c]
    | .take => tiles
    | .reset => []) []

/-- The last call brought a tile. -/
def EndsInPush (cs : List VideoCall) : Prop := ∃ pre c, cs = pre ++ [.push c]

/-- A rectangle holds the tiles, and lies in every other one that does. -/
structure Bounds (tiles : List TileCoord) (r : TileRect) : Prop where
  /-- It holds them. -/
  contains : ∀ c ∈ tiles, r.Contains c
  /-- It is the least one. -/
  least : ∀ s : TileRect, (∀ c ∈ tiles, s.Contains c) → r ≤ s

/-- A rectangle of one tile. -/
theorem Bounds.single (c : TileCoord) : Bounds [c] (.single c) where
  contains := by
    intro c' hc'
    rw [List.mem_singleton.mp hc']
    exact ⟨⟨le_rfl, le_rfl⟩, le_rfl, le_rfl⟩
  least s hs := hs c List.mem_cons_self

/-- A rectangle is extended by a tile. -/
theorem Bounds.extend {tiles : List TileCoord} {r : TileRect} (h : Bounds tiles r) (c : TileCoord) :
    Bounds (tiles ++ [c]) (r.extend c) where
  contains := by
    intro c' hc'
    rcases List.mem_append.mp hc' with hold | hnew
    · obtain ⟨⟨hleft, hright⟩, htop, hbottom⟩ := h.contains c' hold
      exact ⟨⟨min_le_of_left_le hleft, le_max_of_le_left hright⟩,
        min_le_of_left_le htop, le_max_of_le_left hbottom⟩
    · rw [List.mem_singleton.mp hnew]
      exact ⟨⟨min_le_right _ _, le_max_right _ _⟩, min_le_right _ _, le_max_right _ _⟩
  least := by
    intro s hs
    obtain ⟨hold, hnew⟩ := List.forall_mem_append.mp hs
    obtain ⟨⟨hleft, hright⟩, htop, hbottom⟩ := h.least s hold
    obtain ⟨⟨hleft', hright'⟩, htop', hbottom'⟩ := hnew c List.mem_cons_self
    exact ⟨⟨le_min hleft hleft', max_le hright hright'⟩, le_min htop htop', max_le hbottom hbottom'⟩

/-- There is one least rectangle. -/
theorem Bounds.unique {tiles : List TileCoord} {r s : TileRect} (hr : Bounds tiles r)
    (hs : Bounds tiles s) : r = s := by
  obtain ⟨⟨h1, h2⟩, h3, h4⟩ := hr.least s hs.contains
  obtain ⟨⟨h5, h6⟩, h7, h8⟩ := hs.least r hr.contains
  obtain ⟨a, b, c, d⟩ := r
  obtain ⟨a', b', c', d'⟩ := s
  dsimp only at h1 h2 h3 h4 h5 h6 h7 h8
  rw [le_antisymm h5 h1, le_antisymm h7 h3, le_antisymm h2 h6, le_antisymm h4 h8]

/-- The places from `lo` to `hi`, as `u32` computes the first pixel and the number of pixels, end
where they should if and only if both fit. -/
theorem span_le_iff {lo hi : ℕ} (h : lo ≤ hi) :
    (hi + 1) * tileSizePx ≤ asU32 (lo * tileSizePx) +
        asU32 (asU32 (asU32 (hi + 2 ^ 32 - lo) + 1) * tileSizePx) ↔
      lo < 2 ^ 27 ∧ hi + 1 < lo + 2 ^ 27 := by
  unfold asU32 tileSizePx
  constructor
  · intro hle
    omega
  · rintro ⟨hlo, hhi⟩
    omega

/-- A tile reaches the right edge of the least rectangle. -/
theorem Bounds.exists_colMax {tiles : List TileCoord} {r : TileRect} (h : Bounds tiles r)
    (hne : tiles ≠ []) : ∃ c ∈ tiles, c.col = r.colMax := by
  by_contra hnone
  simp only [not_exists, not_and] at hnone
  obtain ⟨c, hc⟩ := List.exists_mem_of_ne_nil tiles hne
  -- Else the rectangle without its last column would do.
  obtain ⟨⟨-, hright⟩, -, -⟩ := h.least ⟨r.colMin, r.rowMin, r.colMax - 1, r.rowMax⟩ fun c hc => by
    obtain ⟨⟨hleft, hright⟩, hrow⟩ := h.contains c hc
    exact ⟨⟨hleft, Nat.le_sub_one_of_lt (lt_of_le_of_ne hright (hnone c hc))⟩, hrow⟩
  have hlt := lt_of_le_of_ne (h.contains c hc).1.2 (hnone c hc)
  dsimp only at hright
  omega

/-- A tile reaches the bottom of the least rectangle. -/
theorem Bounds.exists_rowMax {tiles : List TileCoord} {r : TileRect} (h : Bounds tiles r)
    (hne : tiles ≠ []) : ∃ c ∈ tiles, c.row = r.rowMax := by
  by_contra hnone
  simp only [not_exists, not_and] at hnone
  obtain ⟨c, hc⟩ := List.exists_mem_of_ne_nil tiles hne
  obtain ⟨-, -, hbottom⟩ := h.least ⟨r.colMin, r.rowMin, r.colMax, r.rowMax - 1⟩ fun c hc => by
    obtain ⟨hcol, htop, hbottom⟩ := h.contains c hc
    exact ⟨hcol, htop, Nat.le_sub_one_of_lt (lt_of_le_of_ne hbottom (hnone c hc))⟩
  have hlt := lt_of_le_of_ne (h.contains c hc).2.2 (hnone c hc)
  dsimp only at hbottom
  omega

/-- The least rectangle holds every pixel of its tiles if and only if its edge and its size in
pixels fit. -/
theorem Bounds.hasPixels_iff {tiles : List TileCoord} {r : TileRect} (h : Bounds tiles r)
    (hne : tiles ≠ []) : (∀ c ∈ tiles, r.HasPixels c) ↔ r.Fits := by
  obtain ⟨c₁, hc₁, hcol⟩ := h.exists_colMax hne
  obtain ⟨c₂, hc₂, hrow⟩ := h.exists_rowMax hne
  have hcols := (h.contains c₁ hc₁).1
  have hrows := (h.contains c₂ hc₂).2
  have hwidth := span_le_iff (hcols.1.trans hcols.2)
  have hheight := span_le_iff (hrows.1.trans hrows.2)
  constructor
  · intro hall
    have hright := (hall c₁ hc₁).1.2
    have hbottom := (hall c₂ hc₂).2.2
    rw [hcol] at hright
    rw [hrow] at hbottom
    exact ⟨hwidth.mp hright, hheight.mp hbottom⟩
  · rintro ⟨hfitsCols, hfitsRows⟩ c hc
    obtain ⟨⟨hleft, hright⟩, htop, hbottom⟩ := h.contains c hc
    -- The first pixel is no later than that of the tile, and the last one no earlier.
    have hx : r.xPx ≤ r.colMin * tileSizePx := Nat.mod_le _ _
    have hy : r.yPx ≤ r.rowMin * tileSizePx := Nat.mod_le _ _
    refine ⟨⟨hx.trans (Nat.mul_le_mul_right _ hleft), ?_⟩,
      hy.trans (Nat.mul_le_mul_right _ htop), ?_⟩
    · exact (Nat.mul_le_mul_right _ (Nat.succ_le_succ hright)).trans (hwidth.mpr hfitsCols)
    · exact (Nat.mul_le_mul_right _ (Nat.succ_le_succ hbottom)).trans (hheight.mpr hfitsRows)

/-- What the sub-stream keeps of its calls. -/
structure Tracks (cs : List VideoCall) (v : VideoSubStream) : Prop where
  /-- There is no rectangle when there are no tiles. -/
  none_iff : v.region = none ↔ registered cs = []
  /-- The rectangle is the least one around the tiles. -/
  bounds : ∀ r, v.region = some r → Bounds (registered cs) r
  /-- It is dirty when the last call brought a tile. -/
  dirty_iff : v.dirty = true ↔ EndsInPush cs

/-- A run ends in a push when its last call is one. -/
theorem endsInPush_concat {pre : List VideoCall} {call : VideoCall} :
    EndsInPush (pre ++ [call]) ↔ ∃ c, call = .push c := by
  constructor
  · rintro ⟨pre', c, h⟩
    exact ⟨c, List.cons.inj (List.append_inj' h rfl).2 |>.1⟩
  · rintro ⟨c, rfl⟩
    exact ⟨pre, c, rfl⟩

variable {cs : List VideoCall} {v : VideoSubStream}

/-- A push extends the rectangle to its tile. -/
theorem Tracks.push (h : Tracks cs v) (c : TileCoord) : Tracks (cs ++ [.push c]) (v.push c) := by
  have hreg : registered (cs ++ [.push c]) = registered cs ++ [c] := by simp [registered]
  refine ⟨?_, ?_, by simp [endsInPush_concat, VideoSubStream.push]⟩
  · rw [hreg]
    cases hv : v.region <;> simp [VideoSubStream.push, hv]
  · intro r hr
    rw [hreg]
    cases hv : v.region with
    | none =>
      simp only [VideoSubStream.push, hv, Option.some.injEq] at hr
      rw [← hr, h.none_iff.mp hv]
      exact .single c
    | some s =>
      simp only [VideoSubStream.push, hv, Option.some.injEq] at hr
      rw [← hr]
      exact (h.bounds s hv).extend c

/-- Taking the rectangle leaves it where it is. -/
theorem Tracks.take (h : Tracks cs v) : Tracks (cs ++ [.take]) v.takeDirtyRegion.2 := by
  have hreg : registered (cs ++ [.take]) = registered cs := by simp [registered]
  have hregion : v.takeDirtyRegion.2.region = v.region := by
    unfold takeDirtyRegion
    split <;> rfl
  have hdirty : v.takeDirtyRegion.2.dirty = false := by
    unfold takeDirtyRegion
    split
    · rfl
    · exact Bool.eq_false_iff.mpr ‹_›
  refine ⟨?_, ?_, by simp [endsInPush_concat, hdirty]⟩
  · rw [hregion, hreg]
    exact h.none_iff
  · rw [hregion, hreg]
    exact h.bounds

/-- A reset forgets the tiles. -/
theorem Tracks.reset (cs : List VideoCall) (v : VideoSubStream) :
    Tracks (cs ++ [.reset]) v.reset := by
  have hreg : registered (cs ++ [.reset]) = [] := by simp [registered]
  refine ⟨by simp [hreg, VideoSubStream.reset], ?_, by
    simp [endsInPush_concat, VideoSubStream.reset]⟩
  intro r hr
  cases hr

/-- After any calls the sub-stream keeps track of them. -/
theorem tracks_finish (cs : List VideoCall) : Tracks cs (calls.finish new cs) := by
  induction cs using List.reverseRecOn with
  | nil =>
    refine ⟨iff_of_true rfl rfl, by rintro r ⟨⟩, ?_⟩
    refine iff_of_false (by decide) ?_
    rintro ⟨pre, c, h⟩
    exact absurd h.symm (List.append_ne_nil_of_right_ne_nil _ (List.cons_ne_nil _ _))
  | append_singleton cs call ih =>
    rw [Machine.finish_append]
    cases call with
    | push c => exact ih.push c
    | take => exact ih.take
    | reset => exact .reset cs (calls.finish new cs)

/-- After any calls, the next one takes a rectangle exactly when the last one brought a tile, and it
is the least rectangle around the tiles that have come since the last reset. So no rectangle is
taken twice. Every pixel of those tiles lies in it if and only if its edge and its size in pixels
fit in 32 bits. -/
theorem takeDirtyRegion_iff (cs : List VideoCall) (r : TileRect) :
    ((calls.finish new cs).takeDirtyRegion.1 = some r ↔
        EndsInPush cs ∧ Bounds (registered cs) r) ∧
      ((calls.finish new cs).takeDirtyRegion.1 = some r →
        ((∀ c ∈ registered cs, r.HasPixels c) ↔ r.Fits)) := by
  have h := tracks_finish cs
  have htaken : (calls.finish new cs).takeDirtyRegion.1 = some r ↔
      EndsInPush cs ∧ Bounds (registered cs) r := by
    unfold takeDirtyRegion
    split_ifs with hdirty
    · have hpush := h.dirty_iff.mp hdirty
      refine ⟨fun hr => ⟨hpush, h.bounds r hr⟩, ?_⟩
      rintro ⟨-, hbounds⟩
      -- A tile has come, so there is a rectangle; it is the least one.
      cases hregion : (calls.finish new cs).region with
      | none =>
        obtain ⟨pre, c, rfl⟩ := hpush
        have hnil := h.none_iff.mp hregion
        simp [registered] at hnil
      | some s => rw [(h.bounds s hregion).unique hbounds]
    · refine iff_of_false (by simp) ?_
      rintro ⟨hpush, -⟩
      exact hdirty (h.dirty_iff.mpr hpush)
  refine ⟨htaken, fun hr => ?_⟩
  obtain ⟨⟨pre, c, rfl⟩, hbounds⟩ := htaken.mp hr
  exact hbounds.hasPixels_iff (by simp [registered])

end VideoSubStream

end LowBand.Platform
