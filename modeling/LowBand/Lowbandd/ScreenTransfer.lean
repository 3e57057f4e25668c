import LowBand.Lib.Reader
import LowBand.Lib.Run
import LowBand.Platform.TileGrid

/-!
# Screen transfer

`screen_transfer.rs` sends a frame tile by tile and puts it together again at the other side. The
lossy picture codec is a parameter. Sizes and offsets are computed in `u32`, which wraps, and a
slice out of bounds is a panic, `none` here.

A tile with few colours is sent losslessly (`Platform.paletteDecode_paletteEncode`), so each tile
that arrives makes its pixels right and leaves the others (`blit_spec`, `recv_tile`), and after
all of them every pixel is right. The width and the height travel as 16 bits, so the frame that is
put together has the size of the sender's only when they fit (`lossless_iff`).
-/

namespace LowBand.Lowbandd

open Lib Platform

/-- `KIND_BEGIN`. -/
def kindBegin : UInt8 := 0x20

/-- `KIND_TILE`. -/
def kindTile : UInt8 := 0x21

/-- `KIND_END`. -/
def kindEnd : UInt8 := 0x22

/-- `ENC_PALETTE`. -/
def encPalette : UInt8 := 0

/-- `ENC_RAW`. -/
def encRaw : UInt8 := 1

/-- `ENC_DCT`. -/
def encDct : UInt8 := 2

/-- `ScreenFrame`. -/
inductive ScreenFrame where
  /-- A frame of a width and a height begins. -/
  | begin (width height : UInt32)
  /-- An encoded tile. -/
  | tile (col row : UInt32) (encoding : UInt8) (data : List UInt8)
  /-- The frame ends. -/
  | finish
deriving DecidableEq

/-- `ScreenError`, without the errors of the session. -/
inductive ScreenError where
  /-- A frame is cut short. -/
  | truncated
  /-- The data of a tile is too long. -/
  | tooLarge
  /-- The first byte is of no screen frame. -/
  | unknownKind (kind : UInt8)
  /-- The encoding of a tile is not known. -/
  | unknownEncoding (encoding : UInt8)
  /-- The buffer is smaller than the frame. -/
  | shortBuffer
  /-- A tile came before a frame began. -/
  | noBegin
  /-- A tile was not decoded. -/
  | badTile
deriving DecidableEq

namespace ScreenFrame

/-- `ScreenFrame::encode`. -/
def encode : ScreenFrame → List UInt8
  | .begin width height => kindBegin :: (leBytes 2 width.toNat ++ leBytes 2 height.toNat)
  | .tile col row encoding data =>
    kindTile :: (leBytes 2 col.toNat ++ leBytes 2 row.toNat ++ encoding ::
      (leBytes 2 data.length ++ data))
  | .finish => [kindEnd]

/-- `take_u16`. -/
def takeU16 : Reader ScreenError UInt16 := Reader.takeU16 .truncated

/-- The fields of a frame, after its kind. -/
def takeFields (kind : UInt8) : Reader ScreenError ScreenFrame :=
  if kind = kindBegin then do
    let width ← takeU16
    let height ← takeU16
    pure (.begin width.toUInt32 height.toUInt32)
  else if kind = kindTile then do
    let col ← takeU16
    let row ← takeU16
    let encoding ← Reader.takeByte .truncated
    let len ← takeU16
    Reader.refuseIf (len.toNat > tileBytes) .tooLarge
    let data ← Reader.takeN .truncated len.toNat
    pure (.tile col.toUInt32 row.toUInt32 encoding data)
  else if kind = kindEnd then pure .finish
  else throw (.unknownKind kind)

/-- A frame is read from the front of the bytes. -/
def take : Reader ScreenError ScreenFrame := do
  let kind ← Reader.takeByte .truncated
  takeFields kind

/-- `ScreenFrame::decode`. -/
def decode (buf : List UInt8) : Except ScreenError ScreenFrame := Reader.decode take buf

/-- The sizes and places have 16 bits, and the data is no longer than a tile. -/
def WithinCaps : ScreenFrame → Prop
  | .begin width height => width.toNat < 2 ^ 16 ∧ height.toNat < 2 ^ 16
  | .tile col row _ data => col.toNat < 2 ^ 16 ∧ row.toNat < 2 ^ 16 ∧ data.length ≤ tileBytes
  | .finish => True

/-- Whether a frame is within its caps can be decided. -/
instance : ∀ f : ScreenFrame, Decidable f.WithinCaps
  | .begin width height =>
    inferInstanceAs (Decidable (width.toNat < 2 ^ 16 ∧ height.toNat < 2 ^ 16))
  | .tile col row _ data =>
    inferInstanceAs (Decidable (col.toNat < 2 ^ 16 ∧ row.toNat < 2 ^ 16 ∧ data.length ≤ tileBytes))
  | .finish => isTrue trivial

/-- A number of 32 bits that has only 16. -/
theorem exists_toUInt32 {x : UInt32} (h : x.toNat < 2 ^ 16) :
    ∃ y : UInt16, y.toUInt32 = x ∧ y.toNat = x.toNat := by
  have hy : (UInt16.ofNat x.toNat).toNat = x.toNat := UInt16.toNat_ofNat_of_lt' h
  refine ⟨UInt16.ofNat x.toNat, ?_, hy⟩
  apply UInt32.toNat_inj.mp
  rw [UInt16.toNat_toUInt32, hy]

/-- What is read is within the caps, and its encoding was at the front of the bytes. -/
theorem of_take {buf : List UInt8} {f : ScreenFrame} {rest : List UInt8}
    (h : take buf = .ok (f, rest)) : f.WithinCaps ∧ buf = f.encode ++ rest := by
  simp only [take, takeFields, takeU16, Reader.bind_ok, Reader.takeByte_ok] at h
  obtain ⟨kind, mid, rfl, h⟩ := h
  split_ifs at h with hbegin htile hend
  · simp only [Reader.bind_ok, Reader.pure_ok, Reader.takeU16_ok] at h
    obtain ⟨width, _, rfl, height, _, rfl, rfl, rfl⟩ := h
    simp only [WithinCaps, encode, UInt16.toNat_toUInt32]
    exact ⟨⟨width.toNat_lt, height.toNat_lt⟩, by simp [hbegin]⟩
  · simp only [Reader.bind_ok, Reader.pure_ok, Reader.takeU16_ok, Reader.takeByte_ok,
      Reader.refuseIf_ok, Reader.takeN_ok] at h
    obtain ⟨col, _, rfl, row, _, rfl, encoding, _, rfl, len, _, rfl, _, _, ⟨hle, rfl⟩, data, _,
      ⟨hlen, rfl⟩, rfl, rfl⟩ := h
    simp only [WithinCaps, encode, UInt16.toNat_toUInt32, hlen]
    exact ⟨⟨col.toNat_lt, row.toNat_lt, Nat.not_lt.mp hle⟩, by simp [htile]⟩
  · obtain ⟨rfl, rfl⟩ := Reader.pure_ok.mp h
    exact ⟨trivial, by rw [hend]; rfl⟩
  · exact (Reader.throw_ok.mp h).elim

/-- A frame within the caps is read from its encoding. -/
theorem take_encode {f : ScreenFrame} (hcaps : f.WithinCaps) (rest : List UInt8) :
    take (f.encode ++ rest) = .ok (f, rest) := by
  simp only [take, takeFields, takeU16, Reader.bind_ok, Reader.takeByte_ok]
  cases f with
  | begin width height =>
    obtain ⟨w, rfl, hw⟩ := exists_toUInt32 hcaps.1
    obtain ⟨h, rfl, hh⟩ := exists_toUInt32 hcaps.2
    refine ⟨kindBegin, _, rfl, ?_⟩
    simp only [if_true, Reader.bind_ok, Reader.pure_ok, Reader.takeU16_ok]
    refine ⟨w, _, ?_, h, rest, rfl, rfl, rfl⟩
    rw [hw, hh]
    exact List.append_assoc _ _ _
  -- The length fits its two bytes, and the cap is met.
  | tile col row encoding data =>
    obtain ⟨hcol, hrow, hle⟩ := hcaps
    obtain ⟨c, rfl, hc⟩ := exists_toUInt32 hcol
    obtain ⟨r, rfl, hr⟩ := exists_toUInt32 hrow
    have hlen : (UInt16.ofNat data.length).toNat = data.length :=
      UInt16.toNat_ofNat_of_lt' (hle.trans_lt (by decide))
    refine ⟨kindTile, _, rfl, ?_⟩
    rw [if_neg (by decide), if_pos rfl]
    simp only [Reader.bind_ok, Reader.pure_ok, Reader.takeU16_ok, Reader.takeByte_ok,
      Reader.refuseIf_ok, Reader.takeN_ok]
    refine ⟨c, _, ?_, r, _, rfl, encoding, _, rfl, UInt16.ofNat data.length, _, rfl, (), _,
      ⟨?_, rfl⟩, data, rest, ⟨hlen.symm, rfl⟩, rfl, rfl⟩
    · rw [hlen, hc, hr]
      change (_ : List UInt8) ++ rest = _
      simp only [List.append_assoc, List.cons_append]
    · rw [hlen]
      exact Nat.not_lt.mpr hle
  | finish =>
    refine ⟨kindEnd, _, rfl, ?_⟩
    rw [if_neg (by decide), if_neg (by decide), if_pos rfl]
    exact Reader.pure_ok.mpr ⟨rfl, rfl⟩

/-- A frame is read from the bytes that begin with its encoding, when it is within the caps. -/
theorem reads_take : take.Reads WithinCaps encode :=
  ⟨of_take, fun ⟨hcaps, h⟩ => h ▸ take_encode hcaps _⟩

/-- Bytes are decoded to a frame exactly when they begin with its encoding and it is within the
caps. -/
theorem decode_ok {buf : List UInt8} {f : ScreenFrame} :
    decode buf = .ok f ↔ f.WithinCaps ∧ f.encode <+: buf := reads_take.decode_ok

/-- A frame within the caps comes back. -/
theorem decode_encode {f : ScreenFrame} (h : f.WithinCaps) : decode f.encode = .ok f :=
  decode_ok.mpr ⟨h, List.prefix_refl _⟩

end ScreenFrame

/-! ## Sender and receiver -/

/-- The lossy codec of tiles (`picture.rs`). -/
structure PictureCodec where
  /-- `encode_tile`. -/
  encodeTile : List UInt8 → List UInt8
  /-- `decode_tile`. -/
  decodeTile : List UInt8 → Option (Bytes tileBytes)

section

variable (picture : PictureCodec)

/-- The frame of a tile; `none` when a slice is out of bounds. -/
def tileFrame (grid : TileGrid) (pixels : List UInt8) (stride : ℕ) (coord : TileCoord) :
    Option ScreenFrame := do
  let tile ← grid.extractTile pixels stride coord
  let (encoding, data) := match paletteEncode tile with
    | .ok d => (encPalette, d)
    | .error _ => (encDct, picture.encodeTile tile)
  pure (.tile (.ofNat coord.col) (.ofNat coord.row) encoding data)

/-- The tiles of a grid, row by row. -/
def coords (grid : TileGrid) : List TileCoord :=
  (List.range grid.rows).flatMap fun row => (List.range grid.cols).map fun col => ⟨col, row⟩

/-- `send_frame`: the frames sent, in order. -/
def sendFrame (width height : UInt32) (pixels : List UInt8) :
    Option (Except ScreenError (List ScreenFrame)) :=
  let stride := asU32 (width.toNat * 4)
  if pixels.length < asU32 (stride * height.toNat) then some (.error .shortBuffer)
  else do
    let grid := TileGrid.new width.toNat height.toNat
    let tiles ← (coords grid).mapM (tileFrame picture grid pixels stride)
    some (.ok (.begin width height :: (tiles ++ [.finish])))

/-- `ScreenReceiver`. -/
structure ScreenReceiver where
  /-- The width of the frame. -/
  width : UInt32
  /-- Its height. -/
  height : UInt32
  /-- The frame buffer. -/
  fb : List UInt8
  /-- The tiles applied since the frame began. -/
  tilesApplied : ℕ

namespace ScreenReceiver

/-- `ScreenReceiver::new`. -/
def new : ScreenReceiver := ⟨0, 0, [], 0⟩

/-- `blit`: the frame buffer with the tile; `none` when a slice is out of bounds. -/
def blit (rx : ScreenReceiver) (col row : UInt32) (tile : List UInt8) : Option (List UInt8) :=
  let tx := asU32 (col.toNat * tileSizePx)
  let ty := asU32 (row.toNat * tileSizePx)
  copyRect (TileGrid.clip ty rx.height.toNat) (TileGrid.clip tx rx.width.toNat)
    (fun r c =>
      asU32 (asU32 (asU32 (asU32 (ty + r) * rx.width.toNat) + asU32 (tx + c)) * 4))
    (fun r c => (r * tileSizePx + c) * 4)
    rx.fb tile

/-- The pixels of a tile. -/
def decodeTile (encoding : UInt8) (data : List UInt8) : Except ScreenError (List UInt8) :=
  if encoding = encPalette then
    match paletteDecode data with
    | .ok tile => .ok tile
    | .error _ => .error .badTile
  else if encoding = encRaw then if data.length ≠ tileBytes then .error .badTile else .ok data
  else if encoding = encDct then
    match picture.decodeTile data with
    | some tile => .ok tile.val
    | none => .error .badTile
  else .error (.unknownEncoding encoding)

/-- `apply`: its result and the receiver after it; `none` when it panics. -/
def apply (rx : ScreenReceiver) :
    ScreenFrame → Option (Except ScreenError (Option (List UInt8)) × ScreenReceiver)
  | .begin width height =>
    some (.ok none, ⟨width, height,
      List.replicate (asU32 (asU32 (width.toNat * height.toNat) * 4)) 0, 0⟩)
  | .tile col row encoding data =>
    if rx.fb = [] then some (.error .noBegin, rx)
    else
      match decodeTile picture encoding data with
      | .error e => some (.error e, rx)
      | .ok tile =>
        (rx.blit col row tile).map fun fb =>
          (.ok none, { rx with fb := fb, tilesApplied := rx.tilesApplied + 1 })
  | .finish => some (.ok (some rx.fb), { rx with fb := [] })

/-- A received frame is decoded and applied: the frame buffers completed, and the receiver after it,
which is lost when it panics. -/
def recv : Machine (Option ScreenReceiver) (List UInt8) (List UInt8)
  | none, _ => ([], none)
  | some rx, bytes =>
    match ScreenFrame.decode bytes with
    | .error _ => ([], some rx)
    | .ok frame =>
      match rx.apply picture frame with
      | none => ([], none)
      | some (.ok (some fb), rx) => ([fb], some rx)
      | some (_, rx) => ([], some rx)

end ScreenReceiver

end

/-! ## One tile -/

/-- The tiles of the grid. -/
theorem mem_coords {grid : TileGrid} {coord : TileCoord} :
    coord ∈ coords grid ↔ coord.col < grid.cols ∧ coord.row < grid.rows := by
  obtain ⟨col, row⟩ := coord
  simp [coords, and_comm]

/-- The places in the frame of the pixels of a tile. -/
def TilePlace (width height : ℕ) (coord : TileCoord) (j : ℕ) : Prop :=
  ∃ r < tileSizePx, ∃ c < tileSizePx, coord.row * tileSizePx + r < height ∧
    coord.col * tileSizePx + c < width ∧
      (coord.row * tileSizePx + r) * width + (coord.col * tileSizePx + c) = j

/-- Every place in the frame is in a tile of the grid. -/
theorem exists_tilePlace {width height j : ℕ} (hj : j < width * height) :
    ∃ coord ∈ coords (TileGrid.new width height), TilePlace width height coord j := by
  have hwidth : 0 < width := Nat.pos_of_mul_pos_right (Nat.zero_lt_of_lt hj)
  have hx : j % width < width := Nat.mod_lt j hwidth
  have hy : j / width < height := Nat.div_lt_of_lt_mul hj
  have hsplit : ∀ n, n / tileSizePx * tileSizePx + n % tileSizePx = n := fun n =>
    Nat.div_add_mod' n tileSizePx
  have hgrid : ∀ {k n}, k < n → k / tileSizePx < (n + tileSizePx - 1) / tileSizePx := by
    intro k n hk
    rw [Nat.lt_iff_add_one_le, Nat.le_div_iff_mul_le (by decide)]
    have := hsplit k
    unfold tileSizePx at this ⊢
    omega
  -- The column and the row of the pixel, each split into a tile and a place in it.
  refine ⟨⟨j % width / tileSizePx, j / width / tileSizePx⟩, ?_, j / width % tileSizePx,
    Nat.mod_lt _ (by decide), j % width % tileSizePx, Nat.mod_lt _ (by decide), ?_⟩
  · simp only [coords, TileGrid.new, List.mem_flatMap, List.mem_map, List.mem_range]
    exact ⟨_, hgrid hy, _, hgrid hx, rfl⟩
  · dsimp only
    rw [hsplit, hsplit]
    exact ⟨hy, hx, Nat.div_add_mod' j width⟩

/-- Every pixel has its alpha set. -/
def Opaque (fb : List UInt8) : Prop :=
  ∀ i, (i + 1) * 4 ≤ fb.length → (chunk 4 i fb)[3]? = some 0xFF

/-- A frame that can be sent without loss: its size fits `u32`, its pixels are opaque, and each of
its tiles, filled up at the edges, has at most 16 colours. -/
structure LosslessFrame (width height : ℕ) (pixels : List UInt8) : Prop where
  /-- The size fits `u32`. -/
  size_lt : width * height * 4 < 2 ^ 32
  /-- The buffer is that of the frame. -/
  length_eq : pixels.length = width * height * 4
  /-- The pixels are opaque. -/
  alpha : Opaque pixels
  /-- The tiles have at most 16 colours. -/
  colors_le : ∀ coord tile, coord.col < (TileGrid.new width height).cols →
    coord.row < (TileGrid.new width height).rows →
    (TileGrid.new width height).extractTile pixels (asU32 (width * 4)) coord = some tile →
      (colors tile).toFinset.card ≤ paletteColorLimit

section

variable {width height : UInt32} {pixels : List UInt8} {rx : ScreenReceiver}

/-- The receiver puts together a frame of this size. -/
structure ScreenReceiver.InFrame (rx : ScreenReceiver) (width height : UInt32) : Prop where
  /-- The width is that of the frame. -/
  width_eq : rx.width = width
  /-- The height is that of the frame. -/
  height_eq : rx.height = height
  /-- The frame buffer has the size of the frame. -/
  length_eq : rx.fb.length = width.toNat * height.toNat * 4

/-- A tile that has the wanted pixels fills its places with them. -/
theorem blit_spec (want : ℕ → List UInt8) (hsize : width.toNat * height.toNat * 4 < 2 ^ 32)
    (hrx : rx.InFrame width height) {col row : UInt32}
    (hcol : col.toNat * tileSizePx + tileSizePx ≤ 2 ^ 32)
    (hrow : row.toNat * tileSizePx + tileSizePx ≤ 2 ^ 32) {tile : List UInt8}
    (htile : tile.length = tileBytes)
    (hpixels : ∀ r < tileSizePx, ∀ c < tileSizePx, row.toNat * tileSizePx + r < height.toNat →
      col.toNat * tileSizePx + c < width.toNat → pixelAt tileSizePx tile c r =
        want ((row.toNat * tileSizePx + r) * width.toNat + (col.toNat * tileSizePx + c))) :
    ∃ fb, rx.blit col row tile = some fb ∧
      Filled want (TilePlace width.toNat height.toNat ⟨col.toNat, row.toNat⟩) rx.fb fb := by
  obtain ⟨hwidth, hheight, hfb⟩ := hrx
  have hpos : 0 < tileSizePx := by decide
  unfold ScreenReceiver.blit TilePlace
  dsimp only
  rw [asU32_of_lt (by omega : col.toNat * tileSizePx < 2 ^ 32),
    asU32_of_lt (by omega : row.toNat * tileSizePx < 2 ^ 32), hwidth, hheight]
  have hrows : ∀ r, r ∈ TileGrid.clip (row.toNat * tileSizePx) height.toNat ↔
      r < tileSizePx ∧ row.toNat * tileSizePx + r < height.toNat := fun r => mem_clip hrow
  have hcols : ∀ c, c ∈ TileGrid.clip (col.toNat * tileSizePx) width.toNat ↔
      c < tileSizePx ∧ col.toNat * tileSizePx + c < width.toNat := fun c => mem_clip hcol
  -- Named, so that `omega` does not look into the products.
  generalize col.toNat * tileSizePx = X at hcol hcols hpixels ⊢
  generalize row.toNat * tileSizePx = Y at hrow hrows hpixels ⊢
  generalize width.toNat = w at *
  generalize height.toNat = h at *
  -- Nothing wraps, and each copy brings the wanted pixel to its place.
  have hcopies : ∀ r ∈ TileGrid.clip Y h, ∀ c ∈ TileGrid.clip X w,
      CopiesPixel want rx.fb tile
        (asU32 (asU32 (asU32 (asU32 (Y + r) * w) + asU32 (X + c)) * 4)) ((r * tileSizePx + c) * 4)
        ((Y + r) * w + (X + c)) (r * tileSizePx + c) := by
    intro r hr c hc
    obtain ⟨hr, hry⟩ := (hrows r).mp hr
    obtain ⟨hc, hcx⟩ := (hcols c).mp hc
    have hle := pixel_le hcx hry
    refine ⟨?_, rfl, hfb ▸ hle, htile ▸ pixel_le hc hr, hpixels r hr c hc hry hcx⟩
    rw [asU32_of_lt (by omega : Y + r < 2 ^ 32), asU32_of_lt (by omega : X + c < 2 ^ 32),
      asU32_of_lt (by omega : (Y + r) * w < 2 ^ 32),
      asU32_of_lt (by omega : (Y + r) * w + (X + c) < 2 ^ 32),
      asU32_of_lt (by omega : ((Y + r) * w + (X + c)) * 4 < 2 ^ 32)]
  obtain ⟨fb, hcopy, hfilled⟩ := copyRect_spec _ _ hcopies
  refine ⟨fb, hcopy, hfilled.congr fun j => ?_⟩
  constructor
  · rintro ⟨r, hr, c, hc, rfl⟩
    obtain ⟨hr, hry⟩ := (hrows r).mp hr
    obtain ⟨hc, hcx⟩ := (hcols c).mp hc
    exact ⟨r, hr, c, hc, hry, hcx, rfl⟩
  · rintro ⟨r, hr, c, hc, hry, hcx, rfl⟩
    exact ⟨r, (hrows r).mpr ⟨hr, hry⟩, c, (hcols c).mpr ⟨hc, hcx⟩, rfl⟩

/-- The pixels of a tile of few colours come back when they are in the frame. -/
theorem tile_pixels (picture : PictureCodec)
    (hframe : LosslessFrame width.toNat height.toNat pixels) {coord : TileCoord}
    (hcoord : coord ∈ coords (TileGrid.new width.toNat height.toNat)) :
    ∃ data tile, tileFrame picture (TileGrid.new width.toNat height.toNat) pixels
        (asU32 (width.toNat * 4)) coord =
          some (.tile (.ofNat coord.col) (.ofNat coord.row) encPalette data) ∧
      data.length ≤ tileBytes ∧ paletteDecode data = .ok tile ∧ tile.length = tileBytes ∧
      ∀ r < tileSizePx, ∀ c < tileSizePx, coord.row * tileSizePx + r < height.toNat →
        coord.col * tileSizePx + c < width.toNat → pixelAt tileSizePx tile c r =
          pixelAt width.toNat pixels (coord.col * tileSizePx + c)
            (coord.row * tileSizePx + r) := by
  obtain ⟨hcol, hrow⟩ := mem_coords.mp hcoord
  obtain ⟨tile, hext, hlen, hpix⟩ :=
    TileGrid.extractTile_spec hframe.size_lt hframe.length_eq hcol hrow
  -- It has few colours, so the palette coder takes it and gives its colours back.
  obtain ⟨data, henc, hdata, hdec⟩ :=
    paletteDecode_paletteEncode hlen (hframe.colors_le coord tile hcol hrow hext)
  have hcount : (colors tile).length = tileBytes / 4 := length_colors hlen
  refine ⟨data, _, ?_, hdata, hdec, ?_, ?_⟩
  · simp only [tileFrame, hext, henc, Option.pure_def, Option.bind_eq_bind, Option.bind_some]
  · rw [length_flatMap_of_length Bgr.length_pixel, hcount]
    rfl
  · intro r hr c hc hry hcx
    have hplace : (r * tileSizePx + c + 1) * 4 ≤ tileBytes := pixel_le hc hr
    have hlt : r * tileSizePx + c < (colors tile).length := by
      rw [hcount]
      unfold tileBytes at hplace ⊢
      omega
    have hin := hpix r hr c hc
    rw [if_pos ⟨hry, hcx⟩] at hin
    have hsize := pixel_le hcx hry
    rw [← hframe.length_eq] at hsize
    have hcolor : (colors tile)[r * tileSizePx + c] =
        Bgr.ofChunk (chunk 4 (r * tileSizePx + c) tile) := by
      simp [colors, chunksExact]
    -- Alpha is set in what comes back, and it was set in the frame.
    rw [pixelAt, chunk_flatMap (by decide) Bgr.length_pixel hlt, hcolor]
    rw [pixelAt] at hin
    rw [hin]
    exact Bgr.pixel_ofChunk (length_chunk hsize) (hframe.alpha _ hsize)

/-- A tile that arrives makes its pixels right and leaves the others. -/
theorem recv_tile (picture : PictureCodec)
    (hframe : LosslessFrame width.toNat height.toNat pixels) (hw16 : width.toNat < 2 ^ 16)
    (hh16 : height.toNat < 2 ^ 16) (hrx : rx.InFrame width height) {coord : TileCoord}
    (hcoord : coord ∈ coords (TileGrid.new width.toNat height.toNat)) :
    ∃ f rx', tileFrame picture (TileGrid.new width.toNat height.toNat) pixels
        (asU32 (width.toNat * 4)) coord = some f ∧
      ScreenReceiver.recv picture (some rx) f.encode = ([], some rx') ∧
      rx'.InFrame width height ∧
      Filled (fun j => chunk 4 j pixels) (TilePlace width.toNat height.toNat coord) rx.fb
        rx'.fb := by
  obtain ⟨data, tile, hsend, hdata, hdec, hlen, hpixels⟩ :=
    tile_pixels picture hframe hcoord
  obtain ⟨hcol, hrow⟩ := mem_coords.mp hcoord
  obtain ⟨hx, hy, hw30, hh30, -⟩ := TileStart.of_lt hframe.size_lt hcol hrow
  have hcolle : coord.col ≤ coord.col * tileSizePx := Nat.le_mul_of_pos_right _ (by decide)
  have hrowle : coord.row ≤ coord.row * tileSizePx := Nat.le_mul_of_pos_right _ (by decide)
  have hcol32 : (UInt32.ofNat coord.col).toNat = coord.col :=
    UInt32.toNat_ofNat_of_lt' (by omega : coord.col < 2 ^ 32)
  have hrow32 : (UInt32.ofNat coord.row).toNat = coord.row :=
    UInt32.toNat_ofNat_of_lt' (by omega : coord.row < 2 ^ 32)
  have hcolfits : (UInt32.ofNat coord.col).toNat * tileSizePx + tileSizePx ≤ 2 ^ 32 := by
    rw [hcol32]
    unfold tileSizePx at hx ⊢
    omega
  have hrowfits : (UInt32.ofNat coord.row).toNat * tileSizePx + tileSizePx ≤ 2 ^ 32 := by
    rw [hrow32]
    unfold tileSizePx at hy ⊢
    omega
  obtain ⟨fb, hblit, hfilled⟩ := blit_spec (fun j => chunk 4 j pixels) hframe.size_lt hrx hcolfits
    hrowfits hlen (by rw [hcol32, hrow32]; exact hpixels)
  rw [hcol32, hrow32] at hfilled
  -- The receiver refuses a tile when its buffer is empty.
  have hne : rx.fb ≠ [] := by
    rw [← List.length_pos_iff, hrx.length_eq]
    have := Nat.mul_pos (by omega : 0 < width.toNat) (by omega : 0 < height.toNat)
    omega
  -- The place of a tile is smaller than the sides, so it has 16 bits as well.
  have hcaps :
      (ScreenFrame.tile (.ofNat coord.col) (.ofNat coord.row) encPalette data).WithinCaps := by
    refine ⟨?_, ?_, hdata⟩
    · rw [hcol32]
      omega
    · rw [hrow32]
      omega
  refine ⟨_, { rx with fb := fb, tilesApplied := rx.tilesApplied + 1 }, hsend, ?_,
    ⟨hrx.width_eq, hrx.height_eq, hfilled.length_eq.trans hrx.length_eq⟩, hfilled⟩
  simp only [ScreenReceiver.recv, ScreenFrame.decode_encode hcaps, ScreenReceiver.apply, hne,
    if_false, ScreenReceiver.decodeTile, if_true, hdec, hblit, Option.map_some]

/-! ## A whole frame -/

/-- Tiles that arrive one after the other make their pixels right and leave the others. -/
theorem recv_tiles (picture : PictureCodec)
    (hframe : LosslessFrame width.toNat height.toNat pixels) (hw16 : width.toNat < 2 ^ 16)
    (hh16 : height.toNat < 2 ^ 16) (hrx : rx.InFrame width height) {cs : List TileCoord}
    (hcs : ∀ coord ∈ cs, coord ∈ coords (TileGrid.new width.toNat height.toNat))
    {tiles : List ScreenFrame}
    (htiles : cs.mapM (tileFrame picture (TileGrid.new width.toNat height.toNat) pixels
      (asU32 (width.toNat * 4))) = some tiles) :
    ∃ rx', (ScreenReceiver.recv picture).emitted (some rx) (tiles.map ScreenFrame.encode) = [] ∧
      (ScreenReceiver.recv picture).finish (some rx) (tiles.map ScreenFrame.encode) = some rx' ∧
      Filled (fun j => chunk 4 j pixels)
        (fun j => ∃ coord ∈ cs, TilePlace width.toNat height.toNat coord j) rx.fb rx'.fb := by
  -- By induction on the tiles, with the receiver as the tiles before left it.
  induction cs generalizing rx tiles with
  | nil =>
    obtain rfl : [] = tiles := Option.some.inj htiles
    exact ⟨rx, rfl, rfl, (Filled.refl rx.fb).congr (by simp)⟩
  | cons coord cs ih =>
    obtain ⟨hcoord, hcs⟩ := List.forall_mem_cons.mp hcs
    obtain ⟨f, mid, hf, hrecv, hmid, hfill⟩ := recv_tile picture hframe hw16 hh16 hrx hcoord
    rw [List.mapM_cons, hf, Option.bind_eq_bind, Option.bind_some, Option.bind_eq_bind,
      Option.bind_eq_some_iff] at htiles
    obtain ⟨rest, hrest, htiles⟩ := htiles
    obtain rfl : f :: rest = tiles := Option.some.inj htiles
    obtain ⟨rx', hemit, hfinish, hfills⟩ := ih hmid hcs hrest
    refine ⟨rx', ?_, ?_, (hfill.trans hfills).congr (by simp)⟩
    · rw [List.map_cons, Machine.emitted, hrecv, hemit, List.append_nil]
    · rw [List.map_cons, Machine.finish, run_cons, hrecv]
      exact hfinish

/-- The tiles of a frame without loss are all sent, as tiles. -/
theorem exists_tiles (picture : PictureCodec)
    (hframe : LosslessFrame width.toNat height.toNat pixels) {cs : List TileCoord}
    (hcs : ∀ coord ∈ cs, coord ∈ coords (TileGrid.new width.toNat height.toNat)) :
    ∃ tiles, cs.mapM (tileFrame picture (TileGrid.new width.toNat height.toNat) pixels
        (asU32 (width.toNat * 4))) = some tiles ∧
      ∀ f ∈ tiles, ∃ col row encoding data, f = .tile col row encoding data := by
  induction cs with
  | nil => exact ⟨[], rfl, by simp⟩
  | cons coord cs ih =>
    obtain ⟨hcoord, hcs⟩ := List.forall_mem_cons.mp hcs
    obtain ⟨data, -, hf, -⟩ := tile_pixels picture hframe hcoord
    obtain ⟨tiles, htiles, hall⟩ := ih hcs
    refine ⟨_ :: tiles, by rw [List.mapM_cons, hf, htiles]; rfl, ?_⟩
    exact List.forall_mem_cons.mpr ⟨⟨_, _, _, _, rfl⟩, hall⟩

/-- A frame without loss is sent: it begins, all its tiles follow, and it ends. -/
theorem exists_sendFrame (picture : PictureCodec)
    (hframe : LosslessFrame width.toNat height.toNat pixels) :
    ∃ tiles, (coords (TileGrid.new width.toNat height.toNat)).mapM
        (tileFrame picture (TileGrid.new width.toNat height.toNat) pixels
          (asU32 (width.toNat * 4))) = some tiles ∧
      (∀ f ∈ tiles, ∃ col row encoding data, f = .tile col row encoding data) ∧
      sendFrame picture width height pixels =
        some (.ok (.begin width height :: (tiles ++ [.finish]))) := by
  have hself : ∀ coord ∈ coords (TileGrid.new width.toNat height.toNat),
      coord ∈ coords (TileGrid.new width.toNat height.toNat) := fun _ h => h
  obtain ⟨tiles, htiles, hall⟩ := exists_tiles picture hframe hself
  -- The products do not wrap, for the frame is that large.
  have hsize : asU32 (asU32 (width.toNat * 4) * height.toNat) = width.toNat * height.toNat * 4 := by
    unfold asU32
    rw [Nat.mod_mul_mod, Nat.mul_right_comm]
    exact Nat.mod_eq_of_lt hframe.size_lt
  refine ⟨tiles, htiles, hall, ?_⟩
  unfold sendFrame
  dsimp only
  rw [hsize, if_neg (Nat.not_lt.mpr hframe.length_eq.ge), htiles]
  rfl

/-- Of the width and the height, the lowest 16 bits arrive. -/
theorem recv_begin (picture : PictureCodec) (width height : UInt32) (rx : ScreenReceiver) :
    ScreenReceiver.recv picture (some rx) (ScreenFrame.begin width height).encode =
      ([], some ⟨width % 65536, height % 65536, List.replicate
        (asU32 (asU32 (width.toNat % 2 ^ 16 * (height.toNat % 2 ^ 16)) * 4)) 0, 0⟩) := by
  have hlow : ∀ x : UInt32, (x % 65536).toNat = x.toNat % 2 ^ 16 := fun x => UInt32.toNat_mod x _
  have hencode : (ScreenFrame.begin width height).encode =
      (ScreenFrame.begin (width % 65536) (height % 65536)).encode := by
    have hmod : ∀ x : UInt32, leBytes 2 x.toNat = leBytes 2 (x % 65536).toNat := fun x =>
      leBytes_eq_of_mod_eq (by rw [hlow]; exact (Nat.mod_mod _ _).symm)
    rw [ScreenFrame.encode, ScreenFrame.encode, hmod width, hmod height]
  have hlt : ∀ x : UInt32, (x % 65536).toNat < 2 ^ 16 := fun x => by
    rw [hlow]
    exact Nat.mod_lt _ (by decide)
  have hcaps : (ScreenFrame.begin (width % 65536) (height % 65536)).WithinCaps :=
    ⟨hlt width, hlt height⟩
  rw [hencode]
  simp only [ScreenReceiver.recv, ScreenFrame.decode_encode hcaps, ScreenReceiver.apply, hlow]

/-- The end of a frame gives the frame buffer. -/
theorem recv_finish (picture : PictureCodec) (rx : ScreenReceiver) :
    ScreenReceiver.recv picture (some rx) ScreenFrame.finish.encode =
      ([rx.fb], some { rx with fb := [] }) := by
  have hcaps : ScreenFrame.finish.WithinCaps := trivial
  simp only [ScreenReceiver.recv, ScreenFrame.decode_encode hcaps, ScreenReceiver.apply]

/-- A tile, whatever it holds, completes no frame and keeps the size of the frame buffer. -/
theorem recv_tile_length (picture : PictureCodec) (rx : ScreenReceiver) (col row : UInt32)
    (encoding : UInt8) (data : List UInt8) :
    ∃ rx', ScreenReceiver.recv picture (some rx) (ScreenFrame.tile col row encoding data).encode =
      ([], rx') ∧ ∀ rx'' ∈ rx', rx''.fb.length = rx.fb.length := by
  unfold ScreenReceiver.recv
  dsimp only
  split
  · exact ⟨_, rfl, by simp⟩
  · next frame hdecode =>
    obtain ⟨-, hhead⟩ := ScreenFrame.decode_ok.mp hdecode
    -- Whatever the bytes are decoded to, they begin with the kind of a tile.
    cases frame with
    | begin | finish => exact absurd (List.cons_prefix_cons.mp hhead).1 (by decide)
    | tile col row encoding data =>
      by_cases hempty : rx.fb = []
      · rw [ScreenReceiver.apply, if_pos hempty]
        exact ⟨_, rfl, by simp⟩
      rw [ScreenReceiver.apply, if_neg hempty]
      cases htile : ScreenReceiver.decodeTile picture encoding data with
      | error e => exact ⟨_, rfl, by simp⟩
      | ok tile =>
        dsimp only
        cases hblit : rx.blit col row tile with
        | none => exact ⟨none, rfl, by simp⟩
        | some fb => exact ⟨some _, rfl, by simpa using length_of_copyRect hblit⟩

/-- A frame buffer that is completed after some tiles has the size it had before them. -/
theorem length_of_mem_emitted (picture : PictureCodec) {tiles : List ScreenFrame}
    (htiles : ∀ f ∈ tiles, ∃ col row encoding data, f = .tile col row encoding data)
    {st : Option ScreenReceiver} {n : ℕ} (hst : ∀ rx ∈ st, rx.fb.length = n) {fb : List UInt8}
    (hfb : fb ∈ (ScreenReceiver.recv picture).emitted st
      ((tiles ++ [ScreenFrame.finish]).map ScreenFrame.encode)) : fb.length = n := by
  -- By induction on the tiles: writing one keeps the length of the buffer.
  induction tiles generalizing st with
  | nil =>
    cases st with
    | none => simp [Machine.emitted, ScreenReceiver.recv] at hfb
    | some rx =>
      simp only [List.nil_append, List.map_cons, List.map_nil, Machine.emitted, recv_finish,
        List.append_nil, List.mem_singleton] at hfb
      rw [hfb]
      exact hst rx rfl
  | cons f tiles ih =>
    obtain ⟨⟨col, row, encoding, data, rfl⟩, hrest⟩ := List.forall_mem_cons.mp htiles
    rw [List.cons_append, List.map_cons, Machine.emitted] at hfb
    cases st with
    | none => exact ih hrest hst hfb
    | some rx =>
      obtain ⟨rx', hrecv, hlen⟩ := recv_tile_length picture rx col row encoding data
      rw [hrecv, List.nil_append] at hfb
      exact ih hrest (fun rx'' h => (hlen rx'' h).trans (hst rx rfl)) hfb

/-- A frame that arrives with the lowest bits of its sides is smaller. -/
theorem cut_size_lt {w h : ℕ} (hsize : w * h * 4 < 2 ^ 32) (hpos : w * h ≠ 0)
    (hbig : ¬ (w < 2 ^ 16 ∧ h < 2 ^ 16)) :
    asU32 (asU32 (w % 2 ^ 16 * (h % 2 ^ 16)) * 4) < w * h * 4 := by
  have hlt : w % 2 ^ 16 * (h % 2 ^ 16) < w * h := by
    obtain ⟨hw, hh⟩ := Nat.mul_ne_zero_iff.mp hpos
    have hmod : ∀ x, x % 2 ^ 16 ≤ x := fun x => Nat.mod_le x (2 ^ 16)
    rcases not_and_or.mp hbig with hbig | hbig
    · -- The side that does not fit gets smaller, and the other is not zero.
      exact Nat.mul_lt_mul_of_lt_of_le (by omega) (hmod h) (by omega)
    · exact Nat.mul_lt_mul_of_le_of_lt (hmod w) (by omega) (by omega)
  rw [asU32_of_lt (by omega : w % 2 ^ 16 * (h % 2 ^ 16) < 2 ^ 32), asU32_of_lt (by omega)]
  omega

/-- A frame whose sides fit 16 bits arrives as it is. -/
theorem emitted_of_fits (picture : PictureCodec)
    (hframe : LosslessFrame width.toNat height.toNat pixels) (hw16 : width.toNat < 2 ^ 16)
    (hh16 : height.toNat < 2 ^ 16) {tiles : List ScreenFrame}
    (htiles : (coords (TileGrid.new width.toNat height.toNat)).mapM
      (tileFrame picture (TileGrid.new width.toNat height.toNat) pixels
        (asU32 (width.toNat * 4))) = some tiles) (rx : ScreenReceiver) :
    (ScreenReceiver.recv picture).emitted (some rx)
      ((ScreenFrame.begin width height :: (tiles ++ [.finish])).map ScreenFrame.encode) =
        [pixels] := by
  have hmod : ∀ x : UInt32, x.toNat < 2 ^ 16 → x % 65536 = x := by
    intro x hx
    apply UInt32.toNat_inj.mp
    rw [UInt32.toNat_mod]
    exact Nat.mod_eq_of_lt hx
  have hsize := hframe.size_lt
  have hnowrap : asU32 (asU32 (width.toNat * height.toNat) * 4) =
      width.toNat * height.toNat * 4 := by
    rw [asU32_of_lt (by omega : width.toNat * height.toNat < 2 ^ 32), asU32_of_lt hsize]
  rw [List.map_cons, Machine.emitted, recv_begin, hmod width hw16, hmod height hh16,
    Nat.mod_eq_of_lt hw16, Nat.mod_eq_of_lt hh16, hnowrap, List.nil_append, List.map_append,
    Machine.emitted_append]
  dsimp only
  generalize hrx : ScreenReceiver.mk width height
    (List.replicate (width.toNat * height.toNat * 4) 0) 0 = begun
  have hbegun : begun.InFrame width height := by
    rw [← hrx]
    exact ⟨rfl, rfl, List.length_replicate⟩
  obtain ⟨rx', hemit, hfinish, hfill⟩ :=
    recv_tiles picture hframe hw16 hh16 hbegun (fun _ h => h) htiles
  -- Every pixel lies in a tile, and each tile has made its own right.
  have hfb : rx'.fb = pixels := by
    have hlen : rx'.fb.length = pixels.length := by
      rw [hfill.length_eq, hbegun.length_eq, hframe.length_eq]
    refine eq_of_chunk_eq (w := 4) (by decide) hlen fun j hj => hfill.filled j ?_
    apply exists_tilePlace
    rw [lt_length_chunks_iff (by decide), hframe.length_eq] at hj
    omega
  rw [hemit, hfinish, List.nil_append, List.map_cons, Machine.emitted, recv_finish, hfb]
  rfl

/-- A frame without an area arrives as an empty one. -/
theorem emitted_of_empty (picture : PictureCodec) (harea : width.toNat * height.toNat = 0)
    (rx : ScreenReceiver) :
    (ScreenReceiver.recv picture).emitted (some rx)
      ([ScreenFrame.begin width height, .finish].map ScreenFrame.encode) = [[]] := by
  have hcut : width.toNat % 2 ^ 16 * (height.toNat % 2 ^ 16) = 0 := by
    rcases Nat.mul_eq_zero.mp harea with h | h <;> rw [h] <;> simp
  rw [List.map_cons, Machine.emitted, recv_begin, hcut, List.map_cons, Machine.emitted, recv_finish]
  rfl

/-- A frame that does not fit 16 bits arrives smaller. -/
theorem not_emitted_of_cut (picture : PictureCodec)
    (hframe : LosslessFrame width.toNat height.toNat pixels)
    (hbig : ¬ (width.toNat < 2 ^ 16 ∧ height.toNat < 2 ^ 16))
    (hpos : width.toNat * height.toNat ≠ 0) {tiles : List ScreenFrame}
    (hall : ∀ f ∈ tiles, ∃ col row encoding data, f = .tile col row encoding data)
    (rx : ScreenReceiver) :
    (ScreenReceiver.recv picture).emitted (some rx)
      ((ScreenFrame.begin width height :: (tiles ++ [.finish])).map ScreenFrame.encode) ≠
        [pixels] := by
  intro harrives
  rw [List.map_cons, Machine.emitted, recv_begin, List.nil_append] at harrives
  have hlen := length_of_mem_emitted picture hall (by rintro rx ⟨⟩; rfl)
    (harrives ▸ List.mem_singleton_self pixels)
  rw [List.length_replicate, hframe.length_eq] at hlen
  exact absurd hlen (cut_size_lt hframe.size_lt hpos hbig).ne'

/-- A grid without an area has no tiles. -/
theorem coords_eq_nil {w h : ℕ} (harea : w * h = 0) : coords (TileGrid.new w h) = [] := by
  apply List.eq_nil_iff_forall_not_mem.mpr
  intro coord hcoord
  obtain ⟨hcol, hrow⟩ := mem_coords.mp hcoord
  have hw := TileGrid.start_lt hcol
  have hh := TileGrid.start_lt hrow
  exact Nat.mul_ne_zero (by omega) (by omega) harea

end

/-- A frame that is opaque, whose tiles have at most 16 colours and whose size fits `u32` is sent,
and arrives byte for byte when it ends, exactly when its sides fit 16 bits or it has no area: the
width and the height are sent as 16 bits. -/
theorem lossless_iff (picture : PictureCodec) (width height : UInt32) (pixels : List UInt8)
    (hframe : LosslessFrame width.toNat height.toNat pixels) :
    ∃ frames, sendFrame picture width height pixels = some (.ok frames) ∧ ∀ rx : ScreenReceiver,
      (ScreenReceiver.recv picture).emitted (some rx) (frames.map ScreenFrame.encode) = [pixels] ↔
        (width.toNat < 2 ^ 16 ∧ height.toNat < 2 ^ 16) ∨ width.toNat * height.toNat = 0 := by
  obtain ⟨tiles, htiles, hall, hsend⟩ := exists_sendFrame picture hframe
  refine ⟨_, hsend, fun rx => ⟨fun harrives => ?_, ?_⟩⟩
  · by_contra hnot
    obtain ⟨hbig, hpos⟩ := not_or.mp hnot
    exact not_emitted_of_cut picture hframe hbig hpos hall rx harrives
  · rintro (⟨hw16, hh16⟩ | harea)
    · exact emitted_of_fits picture hframe hw16 hh16 htiles rx
    · rw [coords_eq_nil harea] at htiles
      obtain rfl : [] = tiles := Option.some.inj htiles
      have hempty : pixels = [] := by
        apply List.eq_nil_of_length_eq_zero
        rw [hframe.length_eq, harea]
      rw [hempty]
      exact emitted_of_empty picture harea rx

/-- A frame of one colour. -/
def solid (area : ℕ) (color : Bgr) : List UInt8 := (List.replicate area color).flatMap Bgr.pixel

/-- The pixels of a frame of one colour. -/
theorem chunk_solid {area j : ℕ} (color : Bgr) (hj : j < area) :
    chunk 4 j (solid area color) = color.pixel := by
  rw [solid, chunk_flatMap (by decide) Bgr.length_pixel (by rwa [List.length_replicate]),
    List.getElem_replicate]

/-- A frame of one colour whose size fits `u32` can be sent without loss. -/
theorem losslessFrame_solid {width height : ℕ} (hsize : width * height * 4 < 2 ^ 32) (color : Bgr) :
    LosslessFrame width height (solid (width * height) color) := by
  have hlen : (solid (width * height) color).length = width * height * 4 := by
    rw [solid, length_flatMap_of_length Bgr.length_pixel, List.length_replicate]
  refine ⟨hsize, hlen, fun j hj => ?_, fun coord tile hcol hrow hext => ?_⟩
  · rw [chunk_solid color (by omega)]
    rfl
  · obtain ⟨tile', hext', htile, hpix⟩ := TileGrid.extractTile_spec hsize hlen hcol hrow
    obtain rfl : tile' = tile := Option.some.inj (hext'.symm.trans hext)
    -- The tile has the colour of the frame and, outside of it, that of the padding.
    have hsubset : (colors tile').toFinset ⊆ {color, ⟨0, 0, 0⟩} := by
      intro c hc
      simp only [colors, chunksExact, List.mem_toFinset, List.mem_map, List.mem_range, htile] at hc
      obtain ⟨_, ⟨i, hi, rfl⟩, rfl⟩ := hc
      have hat := hpix (i / tileSizePx) (Nat.div_lt_of_lt_mul hi) (i % tileSizePx)
        (Nat.mod_lt _ (by decide))
      rw [pixelAt, Nat.div_add_mod'] at hat
      rw [hat, Finset.mem_insert, Finset.mem_singleton]
      split
      · next hin =>
        left
        have := pixel_le hin.2 hin.1
        rw [pixelAt, chunk_solid color (by omega)]
        rfl
      · right
        rfl
    exact (Finset.card_le_card hsubset).trans (Finset.card_le_two.trans (by decide))

/-- A frame of 33 by 2 pixels, with tiles that are filled up at both edges. -/
theorem lossless_narrow :
    ∃ frames, sendFrame ⟨fun _ => [], fun _ => none⟩ 33 2 (solid 66 ⟨1, 2, 3⟩) = some (.ok frames) ∧
      (ScreenReceiver.recv ⟨fun _ => [], fun _ => none⟩).emitted (some .new)
        (frames.map ScreenFrame.encode) = [solid 66 ⟨1, 2, 3⟩] := by
  obtain ⟨frames, hsend, harrives⟩ := lossless_iff ⟨fun _ => [], fun _ => none⟩ 33 2
    (solid 66 ⟨1, 2, 3⟩) (losslessFrame_solid (by decide) ⟨1, 2, 3⟩)
  exact ⟨frames, hsend, (harrives .new).mpr (.inl (by decide))⟩

/-- A frame 65536 pixels wide and one high, all black: its width arrives as zero. -/
theorem wide_frame_cut :
    LosslessFrame 65536 1 (solid 65536 ⟨0, 0, 0⟩) ∧ ∀ picture : PictureCodec,
      ∃ frames, sendFrame picture 65536 1 (solid 65536 ⟨0, 0, 0⟩) = some (.ok frames) ∧
        ∀ rx : ScreenReceiver, (ScreenReceiver.recv picture).emitted (some rx)
          (frames.map ScreenFrame.encode) ≠ [solid 65536 ⟨0, 0, 0⟩] := by
  have hframe : LosslessFrame (65536 : UInt32).toNat (1 : UInt32).toNat (solid 65536 ⟨0, 0, 0⟩) :=
    losslessFrame_solid (by decide) ⟨0, 0, 0⟩
  refine ⟨hframe, fun picture => ?_⟩
  obtain ⟨tiles, -, hall, hsend⟩ := exists_sendFrame picture hframe
  exact ⟨_, hsend, not_emitted_of_cut picture hframe (by decide) (by decide) hall⟩

end LowBand.Lowbandd
