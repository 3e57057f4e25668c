import LowBand.Lib.FirstSeen
import LowBand.Lib.Lockstep
import LowBand.Platform.TileDiff

/-!
# Cursor shapes of captured frames

`ScreenCaptureBroker::acquire_frame` of `screen_capture.rs` hands on the frames of the platform's
backend and takes the cursor shape out of a frame when a shape of the same hash was seen earlier in
the session. The hash is a parameter: the theorems ask that it tells apart the shapes that a run
reports.

Each distinct shape is sent once, at its first report (`emitted_eq`). A remote that shows the shape
sent last therefore shows the reported one as long as the cursor does not go back to an earlier
shape (`latest_emitted`). `follows_without_return` says so of two runs, and that a return cannot be
seen.
-/

namespace LowBand.Platform

open Lib

/-- `CursorShape`. -/
structure CursorShape where
  /-- The width of the image. -/
  width : UInt32
  /-- The height of the image. -/
  height : UInt32
  /-- The hotspot's offset from the left edge. -/
  hotspotX : ℤ
  /-- The hotspot's offset from the upper edge. -/
  hotspotY : ℤ
  /-- The pixels, four bytes each. -/
  pixels : List UInt8
deriving DecidableEq

/-- `CaptureFrame`. -/
structure CaptureFrame where
  /-- The pixels, row by row. -/
  pixels : List UInt8
  /-- The width in pixels. -/
  width : UInt32
  /-- The height in pixels. -/
  height : UInt32
  /-- The bytes from one row to the next. -/
  stride : UInt32
  /-- The regions that changed. -/
  dirtyRects : List DirtyRect
  /-- The cursor shape, if one is given. -/
  cursorShape : Option CursorShape
deriving DecidableEq

/-- `CaptureError`. -/
inductive CaptureError where
  | notGranted
  | osRejected
  | unavailable
  | noNewFrame
deriving DecidableEq

/-- What a call of the backend returns. -/
abbrev Captured := Except CaptureError CaptureFrame

/-- `CursorShapeCache`. -/
structure CursorShapeCache where
  /-- The hashes of the shapes seen. -/
  seen : Finset UInt64

section

variable (hash : CursorShape → UInt64)

/-- `is_new`. -/
def CursorShapeCache.isNew (cache : CursorShapeCache) (shape : CursorShape) :
    Bool × CursorShapeCache :=
  (hash shape ∉ cache.seen, ⟨insert (hash shape) cache.seen⟩)

/-- `ScreenCaptureBroker`, without the backend. -/
structure ScreenCaptureBroker where
  /-- The shapes seen in the session. -/
  cursorCache : CursorShapeCache

namespace ScreenCaptureBroker

/-- A broker as `open` makes it. -/
def new : ScreenCaptureBroker := ⟨⟨∅⟩⟩

/-- `acquire_frame`, given what the backend returns. -/
def acquireFrame (b : ScreenCaptureBroker) (inner : Captured) : Captured × ScreenCaptureBroker :=
  match inner with
  | .error e => (.error e, b)
  | .ok frame =>
    match frame.cursorShape with
    | none => (.ok frame, b)
    | some shape =>
      let (isNew, cache) := b.cursorCache.isNew hash shape
      if !isNew then (.ok { frame with cursorShape := none }, ⟨cache⟩) else (.ok frame, ⟨cache⟩)

end ScreenCaptureBroker

/-- The `cursor_shape` of a frame. A failed call gives no frame. -/
def Captured.shape : Captured → Option (Option CursorShape)
  | .error _ => none
  | .ok frame => some frame.cursorShape

/-- The values of `cursor_shape` in the frames of the backend. -/
def reported (r : List Captured) : List (Option CursorShape) := r.filterMap Captured.shape

/-- The values of `cursor_shape` in the frames that a new broker returns. -/
def emitted (r : List Captured) : List (Option CursorShape) :=
  (transduce (ScreenCaptureBroker.acquireFrame hash) .new r).1.filterMap Captured.shape

/-- The shape that the backend reported last. -/
def lastShape (r : List Captured) : Option CursorShape := latest (reported r)

/-- The hash tells apart the shapes that a run reports. -/
def CollisionFree (r : List Captured) : Prop :=
  Set.InjOn hash {shape | some shape ∈ reported r}

end

variable {hash : CursorShape → UInt64}

/-- A frame without a shape is handed on. -/
theorem acquireFrame_none (b : ScreenCaptureBroker) {frame : CaptureFrame}
    (h : frame.cursorShape = none) : b.acquireFrame hash (.ok frame) = (.ok frame, b) := by
  simp only [ScreenCaptureBroker.acquireFrame, h]

/-- A frame with a shape is handed on with it, or without it when its hash was seen before. -/
theorem acquireFrame_some (b : ScreenCaptureBroker) {frame : CaptureFrame} {shape : CursorShape}
    (h : frame.cursorShape = some shape) :
    b.acquireFrame hash (.ok frame) =
      (.ok { frame with
        cursorShape := if hash shape ∈ b.cursorCache.seen then none else some shape },
        ⟨⟨insert (hash shape) b.cursorCache.seen⟩⟩) := by
  simp only [ScreenCaptureBroker.acquireFrame, h, CursorShapeCache.isNew]
  by_cases hseen : hash shape ∈ b.cursorCache.seen
  · simp [hseen]
  · simp [hseen, ← h]

/-- Fewer shapes have no more collisions. -/
theorem CollisionFree.mono {r r' : List Captured} (h : CollisionFree hash r)
    (hsub : ∀ shape, some shape ∈ reported r' → some shape ∈ reported r) :
    CollisionFree hash r' :=
  Set.InjOn.mono hsub h

/-- From a cache of the shapes of `S`, the broker sends the shapes that come for the first time. -/
theorem shapes_transduce {S : Finset CursorShape} (r : List Captured)
    (hinj : Set.InjOn hash {shape | shape ∈ S ∨ some shape ∈ reported r}) :
    (transduce (ScreenCaptureBroker.acquireFrame hash) ⟨⟨S.image hash⟩⟩ r).1.filterMap
      Captured.shape = firstSeen S (reported r) := by
  induction r generalizing S with
  | nil => rfl
  | cons inner r ih =>
    cases inner with
    | error e => exact ih hinj
    | ok frame =>
      cases hshape : frame.cursorShape with
      | none =>
        have hreported : reported (.ok frame :: r) = none :: reported r := by
          simp [reported, Captured.shape, hshape]
        rw [hreported] at hinj ⊢
        simp only [transduce, acquireFrame_none _ hshape, List.filterMap_cons, Captured.shape,
          hshape, firstSeen]
        rw [ih (hinj.mono (by simp))]
      | some shape =>
        have hreported : reported (.ok frame :: r) = some shape :: reported r := by
          simp [reported, Captured.shape, hshape]
        rw [hreported] at hinj ⊢
        -- The hash is in the cache exactly when the shape was seen, since no two hashes agree.
        have hmem : hash shape ∈ S.image hash ↔ shape ∈ S := by
          have hseen : (S : Set CursorShape) ⊆ {other | other ∈ S ∨
              some other ∈ some shape :: reported r} := fun _ hother => .inl hother
          rw [← Finset.mem_coe, Finset.coe_image,
            hinj.mem_image_iff hseen (.inr List.mem_cons_self), Finset.mem_coe]
        have hrest := ih (S := insert shape S) (hinj.mono (by grind))
        rw [Finset.image_insert] at hrest
        simp only [transduce, acquireFrame_some _ hshape, List.filterMap_cons, Captured.shape, hmem,
          firstSeen]
        rw [hrest]

/-- What the broker sends: each shape at its first report. -/
theorem emitted_eq {r : List Captured} (h : CollisionFree hash r) :
    emitted hash r = firstSeen ∅ (reported r) :=
  shapes_transduce (S := ∅) r (Set.InjOn.mono (by simp) h)

/-- In a run without returns, the shape sent last is the shape reported last. -/
theorem latest_emitted {r : List Captured} (h : CollisionFree hash r)
    (hr : NoReturn (reported r)) : latest (emitted hash r) = lastShape r := by
  rw [emitted_eq h, latest_firstSeen hr]
  rfl

/-- Every stream of shapes is reported by some run. -/
theorem exists_reported (xs : List (Option CursorShape)) : ∃ r, reported r = xs := by
  refine ⟨xs.map fun shape => .ok ⟨[], 0, 0, 0, [], shape⟩, ?_⟩
  rw [reported, List.filterMap_map]
  exact List.filterMap_some

/-- The shapes reported in two rows follow each other. -/
theorem reported_append (r r' : List Captured) :
    reported (r ++ r') = reported r ++ reported r' :=
  List.filterMap_append

/-- Two runs without returns in which the broker sends the same end with the same shape. A run with
a return sends, up to the return, what a run without returns sends that ends with another shape. -/
theorem follows_without_return (hash : CursorShape → UInt64) :
    (∀ r r', CollisionFree hash (r ++ r') → NoReturn (reported r) → NoReturn (reported r') →
      emitted hash r = emitted hash r' → lastShape r = lastShape r') ∧
    ∀ r, CollisionFree hash r → ¬ NoReturn (reported r) →
      ∃ pre r', pre <+: r ∧ CollisionFree hash (r ++ r') ∧ NoReturn (reported r') ∧
        emitted hash r' = emitted hash pre ∧ lastShape r' ≠ lastShape pre := by
  constructor
  · intro r r' hinj hr hr' heq
    have hr1 : CollisionFree hash r := hinj.mono (by simp [reported_append]; tauto)
    have hr2 : CollisionFree hash r' := hinj.mono (by simp [reported_append]; tauto)
    calc lastShape r = latest (emitted hash r) := (latest_emitted hr1 hr).symm
      _ = latest (emitted hash r') := by rw [heq]
      _ = lastShape r' := latest_emitted hr2 hr'
  · intro r hinj hreturn
    -- A return is hidden from the receiver: another run sends it the same.
    obtain ⟨front, ys, hfront, hys, hsub, heq, hne⟩ := exists_twin hreturn
    obtain ⟨pre, hpre, rfl⟩ := List.prefix_filterMap_iff.mp hfront
    obtain ⟨r', rfl⟩ := exists_reported ys
    have hpreFree : CollisionFree hash pre := hinj.mono fun shape h => hfront.subset h
    refine ⟨pre, r', hpre, hinj.mono ?_, hys, ?_, hne⟩
    · intro shape h
      rw [reported_append, List.mem_append] at h
      exact h.elim id (hsub shape)
    · rw [emitted_eq (hinj.mono hsub), emitted_eq hpreFree]
      exact heq

/-- An arrow of one pixel. -/
def arrow : CursorShape := ⟨1, 1, 0, 0, [0, 0, 0, 0]⟩

/-- A text cursor of one pixel. -/
def beam : CursorShape := ⟨1, 1, 0, 0, [255, 0, 0, 0]⟩

/-- A frame with a shape. -/
def shapeFrame (shape : CursorShape) : Captured := .ok ⟨[0, 0, 0, 0], 1, 1, 4, [], some shape⟩

/-- The arrow, the text cursor and one of the two again: the remote sees the same, whichever it
is. -/
theorem return_not_seen :
    ¬ ∀ (hash : CursorShape → UInt64) (r r' : List Captured), CollisionFree hash (r ++ r') →
      emitted hash r = emitted hash r' → lastShape r = lastShape r' := by
  intro h
  have hlast := h (fun shape => (shape.pixels.map UInt8.toUInt64).sum)
    [shapeFrame arrow, shapeFrame beam, shapeFrame arrow]
    [shapeFrame arrow, shapeFrame beam, shapeFrame beam] ?_ ?_
  · exact absurd hlast (by decide)
  · have hshapes : ∀ shape, some shape ∈ reported ([shapeFrame arrow, shapeFrame beam,
        shapeFrame arrow] ++ [shapeFrame arrow, shapeFrame beam, shapeFrame beam]) →
        shape = arrow ∨ shape = beam := by
      intro shape hshape
      simp [reported, shapeFrame, Captured.shape] at hshape
      tauto
    intro s hs t ht heq
    rcases hshapes s hs with rfl | rfl
    · rcases hshapes t ht with rfl | rfl
      · rfl
      · exact absurd heq (by decide)
    · rcases hshapes t ht with rfl | rfl
      · exact absurd heq (by decide)
      · rfl
  · decide

end LowBand.Platform
