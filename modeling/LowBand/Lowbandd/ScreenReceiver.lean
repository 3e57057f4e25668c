import LowBand.Lowbandd.ScreenTransfer

/-!
# The screen receiver over whole runs

A peer sends any screen frames in any order: sizes and places of 16 bits, tiles that lie outside of
the frame, tiles that do not decode, frames that begin again or end twice. `applyAll` applies the
frames of a run; it is `none` once `apply` has panicked.

A tile that decodes is a whole tile, whatever its encoding (`length_of_decodeTile`), and `blit`
clips it to the frame, so while the frame buffer has the size of the frame no slice is out of bounds
(`exists_blit`). The buffer has this size from `Begin` to `End`, which takes it, as long as the size
itself fits `u32` (`Fits`). Under this condition a run of the receiver goes through, nothing wraps,
and the length of the buffer is known after every step: `receiver_survives`. Without it the buffer
is allocated with the size modulo `2^32`, and the first tile already lies outside of it:
`oversized_begin_panics`.
-/

namespace LowBand.Lowbandd

open Lib Platform

/-- The size of a frame that begins fits `u32`. -/
def ScreenFrame.Fits : ScreenFrame → Prop
  | .begin width height => width.toNat * height.toNat * 4 < 2 ^ 32
  | .tile _ _ _ _ => True
  | .finish => True

/-- Whether a frame fits can be decided: only a first frame may not. -/
instance : ∀ f : ScreenFrame, Decidable f.Fits
  | .begin width height => inferInstanceAs (Decidable (width.toNat * height.toNat * 4 < 2 ^ 32))
  | .tile _ _ _ _ => isTrue trivial
  | .finish => isTrue trivial

/-- A frame has begun and not ended. -/
def frameOpen (frames : List ScreenFrame) : Bool :=
  frames.foldl (fun isOpen f => match f with
    | .begin _ _ => true
    | .tile _ _ _ _ => isOpen
    | .finish => false) false

namespace ScreenReceiver

variable (picture : PictureCodec)

/-- One frame is applied; `none` once a frame made the receiver panic. -/
def applyNext (rx : Option ScreenReceiver) (frame : ScreenFrame) : Option ScreenReceiver :=
  rx.bind fun rx => (rx.apply picture frame).map Prod.snd

/-- The frames of a run are applied to a new receiver. -/
def applyAll (frames : List ScreenFrame) : Option ScreenReceiver :=
  run (applyNext picture) (some new) frames

variable {picture}

/-- No value that `blit` computes in `u32` for a tile overflows: those of all rows and columns of
the tile, and the offsets of the pixels that lie in the frame. -/
structure BlitFits (rx : ScreenReceiver) (col row : UInt32) : Prop where
  /-- The first column of the tile. -/
  tx_lt : col.toNat * tileSizePx < 2 ^ 32
  /-- The first row of the tile. -/
  ty_lt : row.toNat * tileSizePx < 2 ^ 32
  /-- The columns of the tile. -/
  x_lt : ∀ c < tileSizePx, col.toNat * tileSizePx + c < 2 ^ 32
  /-- The rows of the tile. -/
  y_lt : ∀ r < tileSizePx, row.toNat * tileSizePx + r < 2 ^ 32
  /-- The offsets in the tile. -/
  src_lt : ∀ r < tileSizePx, ∀ c < tileSizePx, (r * tileSizePx + c) * 4 < 2 ^ 32
  /-- The offsets in the frame, with the sum and the product on the way. -/
  dst_lt : ∀ r < tileSizePx, ∀ c < tileSizePx, row.toNat * tileSizePx + r < rx.height.toNat →
    col.toNat * tileSizePx + c < rx.width.toNat →
    (row.toNat * tileSizePx + r) * rx.width.toNat < 2 ^ 32 ∧
      (row.toNat * tileSizePx + r) * rx.width.toNat + (col.toNat * tileSizePx + c) < 2 ^ 32 ∧
      ((row.toNat * tileSizePx + r) * rx.width.toNat + (col.toNat * tileSizePx + c)) * 4 < 2 ^ 32

/-- No value that `apply` computes in `u32` for a frame overflows. -/
def NoOverflow (rx : ScreenReceiver) : ScreenFrame → Prop
  | .begin width height =>
    width.toNat * height.toNat < 2 ^ 32 ∧ width.toNat * height.toNat * 4 < 2 ^ 32
  | .tile col row _ _ => rx.BlitFits col row
  | .finish => True

/-! ## One frame -/

/-- A tile that decodes is a whole tile. -/
theorem length_of_decodeTile {encoding : UInt8} {data tile : List UInt8}
    (h : decodeTile picture encoding data = .ok tile) : tile.length = tileBytes := by
  unfold decodeTile at h
  split_ifs at h with hpal hraw hlen hdct
  · split at h
    · next htile =>
      rw [← Except.ok.inj h]
      exact length_of_paletteDecode htile
    · cases h
  · rw [← Except.ok.inj h]
    exact not_not.mp hlen
  · split at h
    · next htile =>
      rw [← Except.ok.inj h]
      exact Bytes.length_val _
    · cases h

/-- A place of 16 bits, with the tile there, has 32 bits. -/
theorem place_le {k : UInt32} (h : k.toNat < 2 ^ 16) :
    k.toNat * tileSizePx + tileSizePx ≤ 2 ^ 32 := by
  unfold tileSizePx
  omega

/-- Nothing wraps when a tile is placed in a frame whose size fits. -/
theorem blitFits {rx : ScreenReceiver} {col row : UInt32}
    (hsize : rx.width.toNat * rx.height.toNat * 4 < 2 ^ 32) (hcol : col.toNat < 2 ^ 16)
    (hrow : row.toNat < 2 ^ 16) : rx.BlitFits col row := by
  have hx := place_le hcol
  have hy := place_le hrow
  have hpos : 0 < tileSizePx := by decide
  refine ⟨by omega, by omega, fun c hc => by omega, fun r hr => by omega, ?_, ?_⟩
  · intro r hr c hc
    have hle : (r * tileSizePx + c + 1) * 4 ≤ tileSizePx * tileSizePx * 4 := pixel_le hc hr
    unfold tileSizePx at hle ⊢
    omega
  · intro r hr c hc hry hcx
    have hle := pixel_le hcx hry
    omega

/-- A whole tile is placed in a frame whose buffer has its size, wherever the tile is. -/
theorem exists_blit {rx : ScreenReceiver} {col row : UInt32} {tile : List UInt8}
    (hsize : rx.width.toNat * rx.height.toNat * 4 < 2 ^ 32)
    (hfb : rx.fb.length = rx.width.toNat * rx.height.toNat * 4) (hcol : col.toNat < 2 ^ 16)
    (hrow : row.toNat < 2 ^ 16) (htile : tile.length = tileBytes) :
    ∃ fb, rx.blit col row tile = some fb ∧ fb.length = rx.fb.length := by
  have hrx : rx.InFrame rx.width rx.height := ⟨rfl, rfl, hfb⟩
  -- At the place of a pixel of the tile, that pixel is wanted.
  obtain ⟨fb, hblit, hfilled⟩ := blit_spec
    (fun j => pixelAt tileSizePx tile (j % rx.width.toNat - col.toNat * tileSizePx)
      (j / rx.width.toNat - row.toNat * tileSizePx))
    hsize hrx (place_le hcol) (place_le hrow) htile (by
      intro r hr c hc hry hcx
      rw [pixel_mod hcx, piece_div hcx, Nat.add_sub_cancel_left, Nat.add_sub_cancel_left])
  exact ⟨fb, hblit, hfilled.length_eq⟩

/-- What is known of a receiver between two frames: its size fits, and its buffer has this size
while a frame is open and is empty otherwise. -/
structure Sized (rx : ScreenReceiver) (isOpen : Bool) : Prop where
  /-- The size fits. -/
  size_lt : rx.width.toNat * rx.height.toNat * 4 < 2 ^ 32
  /-- The length of the buffer. -/
  length_eq : rx.fb.length = if isOpen then rx.width.toNat * rx.height.toNat * 4 else 0

/-- A new receiver has an empty buffer. -/
theorem sized_new : new.Sized false := ⟨by decide, rfl⟩

/-- A frame that begins has the buffer of its size. -/
theorem Sized.apply_begin {rx : ScreenReceiver} {width height : UInt32}
    (hfits : width.toNat * height.toNat * 4 < 2 ^ 32) :
    ∃ result rx', rx.apply picture (.begin width height) = some (result, rx') ∧
      rx'.Sized true := by
  refine ⟨_, _, rfl, hfits, ?_⟩
  rw [if_pos rfl, List.length_replicate,
    asU32_of_lt (by omega : width.toNat * height.toNat < 2 ^ 32), asU32_of_lt hfits]

/-- A tile leaves the size of the buffer, whether it is placed or refused. -/
theorem Sized.apply_tile {rx : ScreenReceiver} {isOpen : Bool} (h : rx.Sized isOpen)
    {col row : UInt32} (hcol : col.toNat < 2 ^ 16) (hrow : row.toNat < 2 ^ 16) (encoding : UInt8)
    (data : List UInt8) :
    ∃ result rx', rx.apply picture (.tile col row encoding data) = some (result, rx') ∧
      rx'.Sized isOpen := by
  by_cases hempty : rx.fb = []
  · refine ⟨.error .noBegin, rx, ?_, h⟩
    simp only [ScreenReceiver.apply, hempty, if_true]
  · cases hdec : decodeTile picture encoding data with
    | error e =>
      refine ⟨.error e, rx, ?_, h⟩
      simp only [ScreenReceiver.apply, hempty, if_false, hdec]
    | ok tile =>
      -- The buffer is not empty, so a frame is open.
      have hopen : isOpen = true := by
        by_contra hclosed
        have hlen := h.length_eq
        rw [if_neg hclosed] at hlen
        exact hempty (List.length_eq_zero_iff.mp hlen)
      have hfb := h.length_eq
      rw [if_pos hopen] at hfb
      obtain ⟨fb, hblit, hlen⟩ :=
        exists_blit h.size_lt hfb hcol hrow (length_of_decodeTile hdec)
      refine ⟨.ok none, { rx with fb := fb, tilesApplied := rx.tilesApplied + 1 }, ?_, ?_⟩
      · simp only [ScreenReceiver.apply, hempty, if_false, hdec, hblit, Option.map_some]
      · exact ⟨h.size_lt, hlen.trans h.length_eq⟩

/-- A frame that decodes and fits is applied: the receiver does not panic and stays sized. -/
theorem Sized.apply {rx : ScreenReceiver} {frames : List ScreenFrame}
    (h : rx.Sized (frameOpen frames)) {f : ScreenFrame} (hcaps : f.WithinCaps) (hfits : f.Fits) :
    ∃ result rx', rx.apply picture f = some (result, rx') ∧
      rx'.Sized (frameOpen (frames ++ [f])) := by
  unfold frameOpen
  rw [List.foldl_append]
  cases f with
  | begin width height => exact apply_begin hfits
  | tile col row encoding data => exact h.apply_tile hcaps.1 hcaps.2.1 encoding data
  | finish => exact ⟨_, _, rfl, h.size_lt, rfl⟩

/-- Nothing wraps when such a frame is applied. -/
theorem Sized.noOverflow {rx : ScreenReceiver} {isOpen : Bool} (h : rx.Sized isOpen)
    {f : ScreenFrame} (hcaps : f.WithinCaps) (hfits : f.Fits) : rx.NoOverflow f := by
  cases f with
  | begin width height =>
    have hsize : width.toNat * height.toNat * 4 < 2 ^ 32 := hfits
    exact ⟨by omega, hsize⟩
  | tile col row encoding data => exact blitFits h.size_lt hcaps.1 hcaps.2.1
  | finish => trivial

/-! ## A whole run -/

variable (picture) in
/-- A run of frames that decode and fit goes through. -/
theorem exists_applyAll {frames : List ScreenFrame} (hcaps : ∀ f ∈ frames, f.WithinCaps)
    (hfits : ∀ f ∈ frames, f.Fits) :
    ∃ rx, applyAll picture frames = some rx ∧ rx.Sized (frameOpen frames) := by
  induction frames using List.reverseRecOn with
  | nil => exact ⟨new, rfl, sized_new⟩
  | append_singleton frames f ih =>
    have hf : f ∈ frames ++ [f] := List.mem_append_right _ List.mem_cons_self
    obtain ⟨rx, hrx, hsized⟩ := ih (fun g hg => hcaps g (List.mem_append_left _ hg))
      (fun g hg => hfits g (List.mem_append_left _ hg))
    obtain ⟨result, rx', happly, hsized'⟩ := hsized.apply (hcaps f hf) (hfits f hf)
    refine ⟨rx', ?_, hsized'⟩
    unfold applyAll at hrx ⊢
    rw [run_append, run_cons, run_nil, hrx, applyNext, Option.bind_some, happly, Option.map_some]

end ScreenReceiver

open ScreenReceiver

/-- In every run of frames that `decode` accepts and whose sizes fit `u32`: the receiver never
panics, nothing it computes for the next frame overflows, and after every step its buffer has
exactly the size of the frame, or is empty when no frame is open. -/
theorem receiver_survives (picture : PictureCodec) (frames : List ScreenFrame)
    (hdecoded : ∀ f ∈ frames, ∃ buf, ScreenFrame.decode buf = .ok f)
    (hfits : ∀ f ∈ frames, f.Fits) :
    ∀ pre post, frames = pre ++ post → ∃ rx, applyAll picture pre = some rx ∧
      rx.fb.length =
        (if frameOpen pre then rx.width.toNat * rx.height.toNat * 4 else 0) ∧
      ∀ f ∈ post.head?, rx.NoOverflow f := by
  rintro pre post rfl
  have hcaps : ∀ f ∈ pre ++ post, f.WithinCaps := by
    intro f hf
    obtain ⟨buf, hbuf⟩ := hdecoded f hf
    exact (ScreenFrame.decode_ok.mp hbuf).1
  obtain ⟨rx, hrx, hsized⟩ := exists_applyAll picture
    (fun f hf => hcaps f (List.mem_append_left _ hf))
    (fun f hf => hfits f (List.mem_append_left _ hf))
  refine ⟨rx, hrx, hsized.length_eq, ?_⟩
  intro f hf
  have hmem : f ∈ pre ++ post := List.mem_append_right _ (List.mem_of_mem_head? hf)
  exact hsized.noOverflow (hcaps f hmem) (hfits f hmem)

/-- A picture codec that decodes nothing. -/
def noPicture : PictureCodec := ⟨fun _ => [], fun _ => none⟩

/-- A run with a tile before the frame begins, one at the edge of the frame and one far outside of
it, each of which the receiver survives. -/
theorem receiver_survives_outside :
    let frames : List ScreenFrame := [.tile 0 0 encRaw [], .begin 33 1,
      .tile 1 0 encPalette [1, 9, 9, 9], .tile 65535 65535 encPalette [1, 9, 9, 9], .finish]
    ∀ pre post, frames = pre ++ post → ∃ rx, applyAll noPicture pre = some rx ∧
      rx.fb.length = (if frameOpen pre then rx.width.toNat * rx.height.toNat * 4 else 0) ∧
      ∀ f ∈ post.head?, rx.NoOverflow f := by
  intro frames
  have hcaps : ∀ f ∈ frames, f.WithinCaps := by decide
  refine receiver_survives noPicture frames ?_ (by decide)
  intro f hf
  exact ⟨f.encode, ScreenFrame.decode_encode (hcaps f hf)⟩

/-- The end of a frame of one pixel leaves the receiver with its size and an empty buffer. -/
theorem ended_frame_is_empty :
    let frames : List ScreenFrame := [.begin 1 1, .finish]
    (∀ f ∈ frames, ScreenFrame.decode f.encode = .ok f) ∧
      ∃ rx, applyAll noPicture frames = some rx ∧
        rx.fb.length ≠ rx.width.toNat * rx.height.toNat * 4 := by
  intro frames
  have hcaps : ∀ f ∈ frames, f.WithinCaps := by decide
  refine ⟨?_, ⟨1, 1, [], 0⟩, rfl, by decide⟩
  intro f hf
  exact ScreenFrame.decode_encode (hcaps f hf)

/-- A frame of 33025 by 32513 pixels has `2^32 + 4` bytes. Its buffer is allocated with 4, and its
first tile makes the receiver panic. -/
theorem oversized_begin_panics :
    let frames : List ScreenFrame :=
      [.begin 33025 32513, .tile 0 0 encPalette [1, 9, 9, 9]]
    (∀ f ∈ frames, ScreenFrame.decode f.encode = .ok f) ∧
      (applyAll noPicture frames).isNone = true := by
  intro frames
  have hcaps : ∀ f ∈ frames, f.WithinCaps := by decide
  refine ⟨?_, by decide +kernel⟩
  intro f hf
  exact ScreenFrame.decode_encode (hcaps f hf)

end LowBand.Lowbandd
