import LowBand.Lib.Result
import LowBand.Platform.EntropyTile

/-!
# The tile decoders on any bytes

`PaletteTileDecoder` and `EntropyPaletteDecoder` of `screen_encoder.rs` read bytes that the peer
chose. Here every access of the source to a slice is one that panics out of bounds, separate from
the check before it. `paletteDecodeAt` and `entropyDecodeAt` are the decoders with these accesses;
they come to the same results as the models without (`paletteDecodeAt_eq`, `entropyDecodeAt_eq`), so
no access is out of bounds. For the entropy coder this needs that the indices stored are those of
the palette: then the order at a pixel has as many entries as the palette, and each is an index of
it.

What is decoded is a list of palette colours (`Painted`), so `decoders_safe` can say of every pixel
where it comes from.
-/

namespace LowBand.Platform

open Lib

/-! ## Accesses -/

/-- How a decoder ends without a tile: it reports an error, or an access is out of bounds. -/
inductive TileFailure where
  /-- An error is returned. -/
  | error (e : PaletteDecodeError)
  /-- The index is out of bounds. -/
  | panic
deriving DecidableEq

variable {α : Type}

/-- `xs[i]`. -/
def indexAt (xs : List α) (i : ℕ) : Except TileFailure α :=
  match xs[i]? with
  | some x => .ok x
  | none => .error .panic

/-- `&xs[i..j]`. -/
def sliceAt (xs : List α) (i j : ℕ) : Except TileFailure (List α) :=
  if i ≤ j ∧ j ≤ xs.length then .ok ((xs.take j).drop i) else .error .panic

/-- `xs[i] = x`. -/
def storeAt (xs : List α) (i : ℕ) (x : α) : Except TileFailure (List α) :=
  if i < xs.length then .ok (xs.set i x) else .error .panic

/-- An access inside the bounds. -/
theorem indexAt_of_lt {xs : List α} {i : ℕ} (h : i < xs.length) (d : α) :
    indexAt xs i = .ok (xs.getD i d) := by
  rw [indexAt, List.getElem?_eq_getElem h, List.getD_eq_getElem?_getD, List.getElem?_eq_getElem h,
    Option.getD_some]

/-- What is inside the bounds is an element. -/
theorem getD_mem {xs : List α} {i : ℕ} (h : i < xs.length) (d : α) : xs.getD i d ∈ xs := by
  rw [List.getD_eq_getElem _ _ h]
  exact List.getElem_mem h

/-- An access where there is something. -/
theorem indexAt_of_getElem? {xs : List α} {i : ℕ} {x : α} (h : xs[i]? = some x) :
    indexAt xs i = .ok x := by
  rw [indexAt, h]

/-! ## Bits -/

/-- One bit, as `read_bits` reads it: the position is checked and the byte accessed. -/
def BitReader.readBitAt (r : BitReader) : Except TileFailure (Bool × BitReader) :=
  if r.bytePos ≥ r.data.length then .error (.error .truncated)
  else do
    let byte ← indexAt r.data r.bytePos
    let bit := byte.toNat.testBit r.bitPos
    if r.bitPos + 1 = 8 then pure (bit, ⟨r.data, r.bytePos + 1, 0⟩)
    else pure (bit, ⟨r.data, r.bytePos, r.bitPos + 1⟩)

/-- `read_bits`, with the error that its callers make of `None`. -/
def BitReader.readBitsAt (r : BitReader) (nBits : ℕ) : Except TileFailure (ℕ × BitReader) :=
  (List.range nBits).foldlM (fun (result, r) i => do
    let (bit, r) ← r.readBitAt
    pure (result ||| bit.toNat <<< i, r)) (0, r)

/-- The end of the stream is an error. -/
def orTruncated (x : Option α) : Except TileFailure α :=
  match x with
  | some a => .ok a
  | none => .error (.error .truncated)

/-- The end of the stream ends what follows. -/
theorem orTruncated_bind {β : Type} (x : Option α) (f : α → Option β) :
    orTruncated (x >>= f) = orTruncated x >>= fun a => orTruncated (f a) := by
  cases x <;> rfl

/-- A bit is read without an access out of bounds. -/
theorem BitReader.readBitAt_eq (r : BitReader) : r.readBitAt = orTruncated r.readBit := by
  unfold readBitAt readBit
  by_cases h : r.bytePos < r.data.length
  · rw [if_neg (Nat.not_le.mpr h), List.getElem?_eq_getElem h,
      indexAt_of_getElem? (List.getElem?_eq_getElem h), ok_bind]
    dsimp only
    split <;> rfl
  · rw [if_pos (Nat.not_lt.mp h), List.getElem?_eq_none (Nat.not_lt.mp h)]
    rfl

/-- The end of the stream ends a loop. -/
theorem orTruncated_foldlM {β : Type} (f : β → α → Option β) (b : β) (as : List α) :
    orTruncated (as.foldlM f b) = as.foldlM (fun b a => orTruncated (f b a)) b := by
  induction as generalizing b with
  | nil => rfl
  | cons a as ih =>
    rw [List.foldlM_cons, List.foldlM_cons, orTruncated_bind]
    simp only [ih]

/-- Several bits are read without an access out of bounds. -/
theorem BitReader.readBitsAt_eq (r : BitReader) (nBits : ℕ) :
    r.readBitsAt nBits = orTruncated (r.readBits nBits) := by
  rw [readBitsAt, readBits, orTruncated_foldlM]
  simp only [orTruncated_bind, readBitAt_eq]
  rfl

/-! ## The palette -/

/-- The colours of the palette in the input. -/
def inputPalette (data : List UInt8) : List Bgr :=
  (chunksExact 3 ((data.take (1 + (data.headD 0).toNat * 3)).drop 1)).map Bgr.ofChunk

/-- `|s| [s[0], s[1], s[2]]`. -/
def bgrAt (s : List UInt8) : Except TileFailure Bgr := do
  pure ⟨← indexAt s 0, ← indexAt s 1, ← indexAt s 2⟩

/-- The palette of the input, which has `n` colours. -/
def paletteAt (data : List UInt8) (n : ℕ) : Except TileFailure (List Bgr) := do
  let bytes ← sliceAt data 1 (1 + n * 3)
  (chunksExact 3 bytes).mapM bgrAt

/-- Three bytes make a colour. -/
theorem bgrAt_eq {s : List UInt8} (h : s.length = 3) : bgrAt s = .ok (Bgr.ofChunk s) := by
  obtain ⟨b, g, r, rfl⟩ := List.length_eq_three.mp h
  rfl

/-- A palette that is there is read without an access out of bounds. -/
theorem paletteAt_eq {data : List UInt8} {n : ℕ} (h : 1 + n * 3 ≤ data.length) :
    paletteAt data n =
      .ok ((chunksExact 3 ((data.take (1 + n * 3)).drop 1)).map Bgr.ofChunk) := by
  have hmap : ∀ chunks : List (List UInt8), (∀ s ∈ chunks, s.length = 3) →
      chunks.mapM bgrAt = Except.ok (chunks.map Bgr.ofChunk) := by
    intro chunks hchunks
    induction chunks with
    | nil => rfl
    | cons s chunks ih =>
      obtain ⟨hs, hrest⟩ := List.forall_mem_cons.mp hchunks
      rw [List.mapM_cons, bgrAt_eq hs, ih hrest]
      rfl
  rw [paletteAt, sliceAt, if_pos ⟨by omega, h⟩, ok_bind]
  exact hmap _ fun s hs => length_of_mem_chunksExact hs

/-- As many colours as were announced. -/
theorem length_palette {data : List UInt8} {n : ℕ} (h : 1 + n * 3 ≤ data.length) :
    ((chunksExact 3 ((data.take (1 + n * 3)).drop 1)).map Bgr.ofChunk).length = n := by
  rw [List.length_map, length_chunksExact, List.length_drop, List.length_take, Nat.min_eq_left h,
    Nat.add_sub_cancel_left, Nat.mul_div_cancel n (by decide)]

/-! ## The decoders -/

/-- The pixels of an index stream. -/
def readPixelsAt (palette : List Bgr) (bpi : ℕ) :
    ℕ → BitReader → Except TileFailure (List UInt8)
  | 0, _ => .ok []
  | count + 1, reader => do
    let (idx, reader) ← reader.readBitsAt bpi
    if idx ≥ palette.length then .error (.error (.indexOutOfRange idx palette.length))
    else do
      let bgr ← indexAt palette idx
      let pixels ← readPixelsAt palette bpi count reader
      pure (bgr.pixel ++ pixels)

/-- `PaletteTileDecoder::decode`. -/
def paletteDecodeAt (data : List UInt8) : Except TileFailure (List UInt8) :=
  if data.isEmpty then .error (.error .truncated)
  else do
    let first ← indexAt data 0
    let n := first.toNat
    if n = 0 ∨ n > paletteColorLimit then .error (.error (.invalidPaletteSize first))
    else
      let paletteEnd := 1 + n * 3
      if data.length < paletteEnd then .error (.error .truncated)
      else do
        let palette ← paletteAt data n
        let bpi := bitsPerIndex n
        if bpi = 0 then do
          let bgr ← indexAt palette 0
          pure ((List.replicate (tileBytes / 4) bgr).flatMap Bgr.pixel)
        else do
          let stream ← sliceAt data paletteEnd data.length
          readPixelsAt palette bpi (tileBytes / 4) (.new stream)

/-- `read_entropy_pos`, with the error that its caller makes of `None`. -/
def readEntropyPosAt (r : BitReader) (n : ℕ) : Except TileFailure (ℕ × BitReader) :=
  if n ≤ 1 then .ok (0, r)
  else do
    let (hit, r) ← r.readBitsAt 1
    if hit = 0 then pure (0, r)
    else
      let bpi := bitsPerIndex (n - 1)
      let (missVal, r) ← if bpi > 0 then r.readBitsAt bpi else .ok (0, r)
      pure (missVal + 1, r)

/-- The order of the indices at a pixel. -/
def ccoOf (stored : List UInt8) (px n : ℕ) : Except TileFailure (List ℕ) := do
  let row := px / tileSizePx
  let col := px % tileSizePx
  let left ← if col > 0 then UInt8.toNat <$> indexAt stored (px - 1) else .ok 0
  let above ← if row > 0 then UInt8.toNat <$> indexAt stored (px - tileSizePx) else .ok 0
  pure (ccoForContext left above n)

/-- The loop of `EntropyPaletteDecoder::decode` over the pixels that are left. -/
def decodePixelsAt (palette : List Bgr) :
    List ℕ → List UInt8 → BitReader → Except TileFailure (List UInt8)
  | [], _, _ => .ok []
  | px :: pxs, stored, reader => do
    let cco ← ccoOf stored px palette.length
    let (rank, reader) ← readEntropyPosAt reader palette.length
    if rank ≥ palette.length then .error (.error (.indexOutOfRange rank palette.length))
    else do
      let rawIdx ← indexAt cco rank
      let stored ← storeAt stored px (UInt8.ofNat rawIdx)
      let bgr ← indexAt palette rawIdx
      let pixels ← decodePixelsAt palette pxs stored reader
      pure (bgr.pixel ++ pixels)

/-- `EntropyPaletteDecoder::decode`. -/
def entropyDecodeAt (data : List UInt8) : Except TileFailure (List UInt8) :=
  if data.isEmpty then .error (.error .truncated)
  else do
    let first ← indexAt data 0
    let n := first.toNat
    if n = 0 ∨ n > paletteColorLimit then .error (.error (.invalidPaletteSize first))
    else
      let paletteEnd := 1 + n * 3
      if data.length < paletteEnd then .error (.error .truncated)
      else do
        let palette ← paletteAt data n
        if n = 1 then do
          let bgr ← indexAt palette 0
          pure ((List.replicate (tileBytes / 4) bgr).flatMap Bgr.pixel)
        else do
          let stream ← sliceAt data paletteEnd data.length
          decodePixelsAt palette (List.range (tileBytes / 4)) (List.replicate (tileBytes / 4) 0)
            (.new stream)

/-! ## No access is out of bounds -/

/-- The pixels of an index stream are read without an access out of bounds. -/
theorem readPixelsAt_eq (palette : List Bgr) (bpi count : ℕ) (reader : BitReader) :
    readPixelsAt palette bpi count reader =
      (readPixels palette bpi count reader).mapError .error := by
  induction count generalizing reader with
  | zero => rfl
  | succ count ih =>
    rw [readPixelsAt, readPixels, BitReader.readBitsAt_eq]
    cases reader.readBits bpi with
    | none => rfl
    | some x =>
      obtain ⟨idx, reader⟩ := x
      by_cases hidx : idx < palette.length
      · have hget := List.getElem?_eq_getElem hidx
        simp only [orTruncated, ok_bind, if_neg (Nat.not_le.mpr hidx), indexAt_of_getElem? hget,
          hget, ih, mapError_bind]
        rfl
      · simp only [orTruncated, ok_bind, if_pos (Nat.not_lt.mp hidx),
          List.getElem?_eq_none (Nat.not_lt.mp hidx)]
        rfl

/-- A rank is read without an access out of bounds. -/
theorem readEntropyPosAt_eq (r : BitReader) (n : ℕ) :
    readEntropyPosAt r n = orTruncated (readEntropyPos r n) := by
  unfold readEntropyPosAt readEntropyPos
  split
  · rfl
  · rw [orTruncated_bind, BitReader.readBitsAt_eq]
    congr 1
    funext ⟨hit, r⟩
    dsimp only
    split
    · rfl
    · rw [orTruncated_bind, readMiss]
      split
      · rw [BitReader.readBitsAt_eq]
        rfl
      · rfl

/-- The order at a pixel is found without an access out of bounds. -/
theorem ccoOf_eq {stored : List UInt8} {px : ℕ} (hpx : px < stored.length) (n : ℕ) :
    ccoOf stored px n = .ok (ccoAt stored px n) := by
  have hleft : indexAt stored (px - 1) = .ok (stored.getD (px - 1) 0) := indexAt_of_lt (by omega) 0
  have habove : indexAt stored (px - tileSizePx) = .ok (stored.getD (px - tileSizePx) 0) :=
    indexAt_of_lt (by omega) 0
  unfold ccoOf ccoAt
  rw [hleft, habove]
  dsimp only
  split <;> split <;> rfl

/-- At a pixel whose predecessors have indices of the palette, a rank below the size of the palette
is the place of an index in the order. -/
theorem getD_ccoAt_lt {stored : List UInt8} {n rank : ℕ} (hstored : StoredLt n stored)
    (hrank : rank < n) (px : ℕ) :
    rank < (ccoAt stored px n).length ∧ (ccoAt stored px n).getD rank 0 < n := by
  have hperm := ccoAt_perm hstored (by omega) px
  have hlt : rank < (ccoAt stored px n).length := by
    rwa [hperm.length_eq, List.length_range]
  exact ⟨hlt, List.mem_range.mp (hperm.mem_iff.mp (getD_mem hlt 0))⟩

/-- An index of the palette that is stored keeps the buffer one of such indices. -/
theorem StoredLt.set {stored : List UInt8} {n rawIdx : ℕ} (hstored : StoredLt n stored)
    (hn : n ≤ paletteColorLimit) (hidx : rawIdx < n) (px : ℕ) :
    StoredLt n (stored.set px (UInt8.ofNat rawIdx)) := by
  intro x hx
  rcases List.mem_or_eq_of_mem_set hx with hx | rfl
  · exact hstored x hx
  · have hsmall : rawIdx < 2 ^ 8 := by
      unfold paletteColorLimit at hn
      omega
    rw [UInt8.toNat_ofNat_of_lt' hsmall]
    exact hidx

/-- The pixels of the entropy coder are read without an access out of bounds. -/
theorem decodePixelsAt_eq {palette : List Bgr} (hle : palette.length ≤ paletteColorLimit)
    {pxs : List ℕ} {stored : List UInt8} (hpxs : ∀ px ∈ pxs, px < stored.length)
    (hstored : StoredLt palette.length stored) (reader : BitReader) :
    decodePixelsAt palette pxs stored reader =
      (decodePixels palette pxs stored reader).mapError .error := by
  -- By induction on the pixels, with every stored index inside the palette.
  induction pxs generalizing stored reader with
  | nil => rfl
  | cons px pxs ih =>
    obtain ⟨hpx, hrest⟩ := List.forall_mem_cons.mp hpxs
    rw [decodePixelsAt, decodePixels, ccoOf_eq hpx, ok_bind, readEntropyPosAt_eq]
    cases readEntropyPos reader palette.length with
    | none => rfl
    | some x =>
      obtain ⟨rank, reader⟩ := x
      by_cases hrank : rank < palette.length
      · -- the order has an index of the palette at the rank
        obtain ⟨hlt, hidx⟩ := getD_ccoAt_lt hstored hrank px
        have hlength : ∀ px' ∈ pxs, px' < (stored.set px
            (UInt8.ofNat ((ccoAt stored px palette.length).getD rank 0))).length := by
          simpa using hrest
        have hnext := ih hlength (hstored.set hle hidx px) reader
        simp only [orTruncated, ok_bind, if_neg (Nat.not_le.mpr hrank), indexAt_of_lt hlt 0,
          storeAt, if_pos hpx, indexAt_of_lt hidx ⟨0, 0, 0⟩, hnext, mapError_bind]
        rfl
      · simp only [orTruncated, ok_bind, if_pos (Nat.not_lt.mp hrank)]
        rfl

/-- The stream behind the palette. -/
theorem sliceAt_rest {data : List UInt8} {n : ℕ} (h : 1 + n * 3 ≤ data.length) :
    sliceAt data (1 + n * 3) data.length = .ok (data.drop (1 + n * 3)) := by
  rw [sliceAt, if_pos ⟨h, le_rfl⟩, List.take_length]

/-- `PaletteTileDecoder` makes no access out of bounds. -/
theorem paletteDecodeAt_eq (data : List UInt8) :
    paletteDecodeAt data = (paletteDecode data).mapError .error := by
  -- Each access comes behind the check that keeps it in bounds.
  cases data with
  | nil => rfl
  | cons first rest =>
    unfold paletteDecodeAt paletteDecode
    rw [if_neg (by simp), indexAt_of_getElem? (x := first) rfl, ok_bind]
    dsimp only
    split
    · rfl
    · next hn =>
      split
      · rfl
      · next hlen =>
        have hlen := Nat.not_lt.mp hlen
        rw [paletteAt_eq hlen, ok_bind]
        split
        · rw [indexAt_of_lt (by rw [length_palette hlen]; omega) ⟨0, 0, 0⟩]
          rfl
        · rw [sliceAt_rest hlen, ok_bind, readPixelsAt_eq]

/-- `EntropyPaletteDecoder` makes no access out of bounds. -/
theorem entropyDecodeAt_eq (data : List UInt8) :
    entropyDecodeAt data = (entropyDecode data).mapError .error := by
  cases data with
  | nil => rfl
  | cons first rest =>
    unfold entropyDecodeAt entropyDecode
    rw [if_neg (by simp), indexAt_of_getElem? (x := first) rfl, ok_bind]
    dsimp only
    split
    · rfl
    · next hn =>
      split
      · rfl
      · next hlen =>
        have hlen := Nat.not_lt.mp hlen
        rw [paletteAt_eq hlen, ok_bind]
        split
        · rw [indexAt_of_lt (by rw [length_palette hlen]; omega) ⟨0, 0, 0⟩]
          rfl
        · rw [sliceAt_rest hlen, ok_bind]
          have hpalette := length_palette hlen
          -- The loop starts with all indices zero, which the palette has.
          refine decodePixelsAt_eq (by omega) (fun px hpx => ?_) (fun x hx => ?_) _
          · rw [List.length_replicate]
            exact List.mem_range.mp hpx
          · rw [List.eq_of_mem_replicate hx, hpalette]
            exact Nat.pos_of_ne_zero fun h => hn (.inl h)

/-! ## What is decoded -/

/-- The bytes are opaque pixels of the given number, each with a colour of the palette. -/
def Painted (palette : List Bgr) (count : ℕ) (pixels : List UInt8) : Prop :=
  ∃ cs : List Bgr, cs.length = count ∧ (∀ c ∈ cs, c ∈ palette) ∧ pixels = cs.flatMap Bgr.pixel

variable {palette : List Bgr} {count : ℕ} {pixels : List UInt8}

/-- Nothing is painted before the first run. -/
theorem Painted.nil : Painted palette 0 [] := ⟨[], rfl, by simp, rfl⟩

/-- One more pixel. -/
theorem Painted.cons (h : Painted palette count pixels) {c : Bgr} (hc : c ∈ palette) :
    Painted palette (count + 1) (c.pixel ++ pixels) := by
  obtain ⟨cs, rfl, hcs, rfl⟩ := h
  exact ⟨c :: cs, rfl, List.forall_mem_cons.mpr ⟨hc, hcs⟩, rfl⟩

/-- One colour for all pixels. -/
theorem Painted.replicate {c : Bgr} (hc : c ∈ palette) (count : ℕ) :
    Painted palette count ((List.replicate count c).flatMap Bgr.pixel) :=
  ⟨_, List.length_replicate, fun _ hd => (List.eq_of_mem_replicate hd).symm ▸ hc, rfl⟩

/-- Four bytes for a pixel. -/
theorem Painted.length_eq (h : Painted palette count pixels) : pixels.length = 4 * count := by
  obtain ⟨cs, rfl, -, rfl⟩ := h
  rw [length_flatMap_of_length Bgr.length_pixel, Nat.mul_comm]

/-- Every pixel has a colour of the palette. -/
theorem Painted.exists_color (h : Painted palette count pixels) {px : ℕ} (hpx : px < count) :
    ∃ c ∈ palette, chunk 4 px pixels = c.pixel := by
  obtain ⟨cs, rfl, hcs, rfl⟩ := h
  refine ⟨cs[px], hcs _ (List.getElem_mem hpx), ?_⟩
  exact chunk_flatMap (by decide) Bgr.length_pixel hpx

/-- An index stream paints with the palette. -/
theorem painted_of_readPixels {bpi : ℕ} {reader : BitReader}
    (h : readPixels palette bpi count reader = .ok pixels) : Painted palette count pixels := by
  induction count generalizing reader pixels with
  | zero =>
    rw [← Except.ok.inj h]
    exact .nil
  | succ count ih =>
    unfold readPixels at h
    split at h
    · cases h
    · split at h
      · cases h
      · next hget =>
        obtain ⟨rest, hrest, heq⟩ := bind_eq_ok.mp h
        rw [← Except.ok.inj heq]
        exact (ih hrest).cons (List.mem_of_getElem? hget)

/-- A stream of ranks paints with the palette. -/
theorem painted_of_decodePixels (hle : palette.length ≤ paletteColorLimit) {pxs : List ℕ}
    {stored : List UInt8} (hstored : StoredLt palette.length stored) {reader : BitReader}
    (h : decodePixels palette pxs stored reader = .ok pixels) :
    Painted palette pxs.length pixels := by
  -- By induction on the pixels: each one gets a colour of the palette.
  induction pxs generalizing stored reader pixels with
  | nil =>
    rw [← Except.ok.inj h]
    exact .nil
  | cons px pxs ih =>
    unfold decodePixels at h
    dsimp only at h
    split at h
    · cases h
    · next rank reader' _ =>
      split at h
      · cases h
      · next hrank =>
        obtain ⟨-, hidx⟩ := getD_ccoAt_lt hstored (Nat.not_le.mp hrank) px
        obtain ⟨rest, hrest, heq⟩ := bind_eq_ok.mp h
        rw [← Except.ok.inj heq]
        exact (ih (hstored.set hle hidx px) hrest).cons (getD_mem hidx _)

/-- `PaletteTileDecoder` paints a whole tile with the palette of the input. -/
theorem painted_of_paletteDecode {data tile : List UInt8} (h : paletteDecode data = .ok tile) :
    Painted (inputPalette data) (tileBytes / 4) tile := by
  unfold paletteDecode at h
  split at h
  · cases h
  · next first rest =>
    dsimp only at h
    split_ifs at h with hn hlen hbpi
    · rw [← Except.ok.inj h]
      refine Painted.replicate (getD_mem ?_ _) _
      rw [inputPalette, List.headD_cons, length_palette (Nat.not_lt.mp hlen)]
      omega
    · exact painted_of_readPixels h

/-- `EntropyPaletteDecoder` paints a whole tile with the palette of the input. -/
theorem painted_of_entropyDecode {data tile : List UInt8} (h : entropyDecode data = .ok tile) :
    Painted (inputPalette data) (tileBytes / 4) tile := by
  unfold entropyDecode at h
  split at h
  · cases h
  · next first rest =>
    dsimp only at h
    split_ifs at h with hn hlen hone
    · rw [← Except.ok.inj h]
      refine Painted.replicate (getD_mem ?_ _) _
      rw [inputPalette, List.headD_cons, length_palette (Nat.not_lt.mp hlen)]
      omega
    · have hpalette := length_palette (Nat.not_lt.mp hlen)
      have hpainted := painted_of_decodePixels (by omega) (fun x hx => by
        rw [List.eq_of_mem_replicate hx, hpalette]
        exact Nat.pos_of_ne_zero fun h => hn (.inl h)) h
      rwa [List.length_range] at hpainted

/-- On any bytes the two decoders return an error or a tile of 4096 bytes in which each pixel is
opaque and has a colour of the palette in the input, and no access to a slice is out of bounds. -/
theorem decoders_safe (data : List UInt8) :
    paletteDecodeAt data ≠ .error .panic ∧ entropyDecodeAt data ≠ .error .panic ∧
      ∀ tile, paletteDecodeAt data = .ok tile ∨ entropyDecodeAt data = .ok tile →
        tile.length = tileBytes ∧
          ∀ px < tileBytes / 4, ∃ c ∈ inputPalette data, chunk 4 px tile = c.pixel := by
  have hpanic : ∀ x : Except PaletteDecodeError (List UInt8),
      x.mapError TileFailure.error ≠ .error .panic := by
    intro x
    cases x with
    | error e => exact fun h => by cases h
    | ok tile => exact fun h => by cases h
  rw [paletteDecodeAt_eq, entropyDecodeAt_eq]
  refine ⟨hpanic _, hpanic _, fun tile h => ?_⟩
  have hpainted : Painted (inputPalette data) (tileBytes / 4) tile :=
    h.elim (fun h => painted_of_paletteDecode (mapError_eq_ok.mp h))
      (fun h => painted_of_entropyDecode (mapError_eq_ok.mp h))
  exact ⟨hpainted.length_eq, fun px hpx => hpainted.exists_color hpx⟩

end LowBand.Platform
